import McpgSdk.Queue.Window

/-!
# No message is removed without its own acknowledgement

The source's `ack` removes a message from its queue. The settling thread calls it for what it takes
out of the window under the sequence number of an acknowledged position, and `offer` for what the
host cannot take.

* `Real`: the threads settle deliveries that were received, with the receipts they came with;
* `Earned`: every acknowledgement on its way names an emitted position, and every call of `ack` is
  earned by one, or by an event the host cannot take;
* **`acked_is_acknowledged`**: the calls of `ack`, in every run of an event source whose host
  acknowledges only what was emitted.
-/

set_option autoImplicit false

namespace McpgSdk

open OrdMap

namespace Queue

/-! ## Receipts -/

/-- Every delivery the receiving thread works on. -/
def ReceiverPc.items (pc : ReceiverPc) : List Item := pc.hand ++ (pc.current.map Prod.fst).toList

/-- A receipt came with the delivery. -/
def Came (q : Queue) (id : ℕ) (receipt : Json) : Prop :=
  (q.received[id]?.map Delivery.receipt) = some receipt

/-- The threads hold and settle what was received. -/
structure Real (q : Queue) : Prop where
  items : ∀ i ∈ q.receiver.items, q.received[i.id]? = some i.delivery
  window : ∀ (s : ℕ) (h : Held), q.pending[s]? = some h → q.Came h.id h.receipt
  settler : ∀ h ∈ q.settler.hand, q.Came h.id h.receipt
  log : ∀ s ∈ q.log, q.Came s.id s.receipt

theorem came_append {q q' : Queue} {more : List Delivery} (hr : q'.received = q.received ++ more)
    {id : ℕ} {receipt : Json} (h : q.Came id receipt) : q'.Came id receipt := by
  obtain ⟨d, hd, hrec⟩ := Option.map_eq_some_iff.mp h
  rw [Came, hr, List.getElem?_append_left (List.getElem?_eq_some_iff.mp hd).1, hd, Option.map_some,
    hrec]

theorem getElem?_itemsOf {received ds : List Delivery} {n : ℕ} (hn : n = received.length) {i : Item}
    (hi : i ∈ itemsOf n ds) : (received ++ ds)[i.id]? = some i.delivery := by
  induction ds generalizing received n with
  | nil => cases hi
  | cons d ds ih =>
    rcases List.mem_cons.mp hi with rfl | hi
    · rw [hn, List.getElem?_append_right le_rfl, Nat.sub_self]
      rfl
    · have hn' : n + 1 = (received ++ [d]).length := by rw [hn, List.length_append]; rfl
      have h := ih hn' hi
      rwa [List.append_assoc] at h

theorem mem_items_of_hand {pc : ReceiverPc} {i : Item} (h : i ∈ pc.hand) : i ∈ pc.items :=
  List.mem_append_left _ h

theorem mem_hand_of_items {pc : ReceiverPc} {i : Item} (hc : pc.current = none)
    (h : i ∈ pc.items) : i ∈ pc.hand := by
  rw [ReceiverPc.items, hc] at h
  simpa using h

theorem mem_items_of_current {pc : ReceiverPc} {i : Item} {seq : ℕ}
    (h : pc.current = some (i, seq)) : i ∈ pc.items := by
  rw [ReceiverPc.items, h]
  exact List.mem_append_right _ (List.mem_singleton_self i)

section RealSteps

variable {X : Externs} {c : Config} {q q' : Queue} {a : Act}

theorem real_start (now : Nanos) : (start now).Real where
  items := by simp [start, ReceiverPc.items]
  window := by simp [start]
  settler := by simp [start]
  log := by simp [start]

theorem came_log {id : ℕ} {receipt : Json} {call : Call} (hi : q.Real) (h : q.Came id receipt) :
    ∀ s ∈ q.log ++ [(⟨call, id, receipt⟩ : Settlement)], q.Came s.id s.receipt := by
  intro s hs
  rcases List.mem_append.mp hs with hs | hs
  · exact hi.log s hs
  · obtain rfl := List.mem_singleton.mp hs
    exact h

theorem came_item (hi : q.Real) {i : Item} (h : i ∈ q.receiver.items) :
    q.Came i.id i.delivery.receipt := by
  rw [Came, hi.items i h, Option.map_some]

theorem real_step (hi : q.Real) (ht : Transition X c q a q') : q'.Real := by
  have hitems := hi.items
  cases ht with
  | walk hfree hpc =>
    refine { hi with items := fun i h => ?_ }
    have h := mem_hand_of_items hpc.free.holds_nothing.2.2 h
    rw [hpc.free.holds_nothing.1] at h
    cases h
  | quit | room | leave => exact { hi with items := fun i h => by cases h }
  | @arrive room deliveries hpc =>
    have hcame : ∀ {id : ℕ} {receipt : Json}, q.Came id receipt → Queue.Came { q with
        receiver := .got (itemsOf q.received.length deliveries)
        received := q.received ++ deliveries } id receipt := fun h => came_append rfl h
    exact {
      items := fun i h => getElem?_itemsOf rfl (mem_hand_of_items rfl h)
      window := fun s h hs => hcame (hi.window s h hs)
      settler := fun h hh => hcame (hi.settler h hh)
      log := fun s hs => hcame (hi.log s hs) }
  | turnAway hpc hstop | keep hpc hsource | consume hpc hsource | fits hpc htext
  | refused hpc htext =>
    rw [hpc] at hitems
    exact { hi with items := hitems }
  | releaseNow hpc | ackNow hpc | reject hpc =>
    have hcame := came_item hi (mem_items_of_hand (by rw [hpc]; exact List.mem_cons_self))
    rw [hpc] at hitems
    exact { hi with
      items := fun j hj => hitems j (List.mem_cons_of_mem _ hj)
      log := came_log hi hcame }
  | @insert i rest hpc =>
    have hcame := came_item hi (mem_items_of_hand (by rw [hpc]; exact List.mem_cons_self))
    rw [hpc] at hitems
    refine { hi with items := fun j hj => hitems j ?_, window := fun s h hs => ?_ }
    · rcases List.mem_append.mp hj with hj | hj
      · exact List.mem_append_left _ (List.mem_cons_of_mem i hj)
      · obtain rfl := List.mem_singleton.mp hj
        exact List.mem_append_left _ List.mem_cons_self
    · rw [getElem?_insert_ite] at hs
      split_ifs at hs
      · obtain rfl := Option.some.inj hs
        exact hcame
      · exact hi.window s h hs
  | @emit i seq text rest hpc =>
    rw [hpc] at hitems
    refine { hi with items := fun j hj => hitems j ?_ }
    have hrest : j ∈ rest := mem_hand_of_items rfl hj
    exact List.mem_append_left _ hrest
  | takeBack hpc =>
    rw [hpc] at hitems
    refine { hi with
      items := fun j hj => hitems j ?_
      window := fun s h hs => hi.window s h (getElem?_pending_erase hs) }
    rcases List.mem_cons.mp (mem_hand_of_items rfl hj) with rfl | hj
    · exact mem_items_of_current rfl
    · exact List.mem_append_left _ hj
  | expire hpc =>
    refine { hi with
      window := fun s h hs => hi.window s h (getElem?_pending_filter hs)
      settler := fun h hh => ?_ }
    obtain ⟨sh, hsh, rfl⟩ := List.mem_map.mp (List.mem_of_mem_filter hh)
    exact hi.window sh.1 sh.2 (Std.ExtTreeMap.mem_toList_iff_getElem?_eq_some.mp hsh)
  | releaseLate hpc | releaseHeld hpc =>
    have hsettler := hi.settler
    rw [hpc] at hsettler
    exact { hi with
      settler := fun h hh => hsettler h (List.mem_cons_of_mem _ hh)
      log := came_log hi (hsettler _ List.mem_cons_self) }
  | ackTaken hpc =>
    have hsettler := hi.settler
    rw [hpc] at hsettler
    exact { hi with
      settler := fun h hh => by cases hh
      log := came_log hi (hsettler _ List.mem_cons_self) }
  | wait hfree hpc =>
    refine { hi with settler := fun h hh => ?_ }
    rw [hpc.hand_eq] at hh
    cases hh
  | die | hear | hearStop | miss | finish => exact { hi with settler := fun h hh => by cases hh }
  | take hpc hseq hheld =>
    refine { hi with
      window := fun s h hs => hi.window s h (getElem?_pending_erase hs)
      settler := fun h hh => ?_ }
    obtain rfl := List.mem_singleton.mp hh
    exact hi.window _ _ hheld
  | drain hpc =>
    refine { hi with window := fun s h hs => by simp at hs, settler := fun h hh => ?_ }
    obtain ⟨sh, hsh, rfl⟩ := List.mem_map.mp hh
    exact hi.window sh.1 sh.2 (Std.ExtTreeMap.mem_toList_iff_getElem?_eq_some.mp hsh)
  | ack | cancel | join | sendStop | joinSettler | tick => exact { hi with }

theorem real_of_reach {ok : Queue → Act → Prop} {now : Nanos}
    (hr : Reach (Steps X c) ok (start now) q) : q.Real :=
  invariant_of_transition hr (real_start now) fun _ _ _ hu _ ht => real_step hu ht

end RealSteps

/-! ## Earned acks -/

/-- The host acknowledged the position emitted for the delivery. -/
def HostAcked (q : Queue) (id : ℕ) : Prop := ∃ e ∈ q.emitted, e.id = id ∧ e.seq ∈ q.hostAcked

/-- The delivery's event, at the position it was given, has no text or one past the limit. -/
def Refused (X : Externs) (c : Config) (q : Queue) (id : ℕ) : Prop :=
  ∃ d g, q.received[id]? = some d ∧ g ∈ q.given ∧ g.id = id ∧ offerText X c d.event g.seq = none

/-- The host acknowledges only positions that were emitted, or values that name no number. -/
def HonestHost (q : Queue) : Act → Prop
  | .ack position => (positionSeq position).all (fun s => q.emitted.any fun e => e.seq == s) = true
  | _ => True

instance (q : Queue) : DecidablePred (HonestHost q)
  | .ack _ => inferInstanceAs (Decidable (_ = true))
  | .receiver | .connected _ | .received _ | .settler | .cancel | .tick _ => .isTrue trivial

/-- Every number the position names was acknowledged by the host. -/
def Names (q : Queue) (position : Json) : Prop :=
  ∀ s, positionSeq position = some s → s ∈ q.hostAcked

/-- Acknowledgements on their way are the host's, and every `ack` is earned. -/
structure Earned (X : Externs) (c : Config) (q : Queue) : Prop where
  queued : ∀ position, .ack position ∈ q.settles → q.Names position
  taking : ∀ position, q.settler = .taking position → q.Names position
  acking : ∀ h, q.settler = .acking h → q.HostAcked h.id
  /-- An event source never settles at once. -/
  source : ∀ items, q.receiver ≠ .acking items
  refused : ∀ i seq rest, q.receiver = .taking i seq rest →
    offerText X c i.delivery.event seq = none
  rejecting : ∀ i rest, q.receiver = .rejecting i rest → q.Refused X c i.id
  log : ∀ s ∈ q.log, s.call = .ack → q.HostAcked s.id ∨ q.Refused X c s.id

section EarnedSteps

variable {X : Externs} {c : Config} {q q' : Queue} {a : Act}

theorem earned_start (now : Nanos) : (start now).Earned X c where
  queued := by simp [start]
  taking := by simp [start]
  acking := by simp [start]
  source := by simp [start]
  refused := by simp [start]
  rejecting := by simp [start]
  log := by simp [start]

/-- More is received, given, emitted and acknowledged as the run goes on. -/
structure Grows (q q' : Queue) : Prop where
  received : ∃ more, q'.received = q.received ++ more
  given : ∀ g ∈ q.given, g ∈ q'.given
  emitted : ∀ e ∈ q.emitted, e ∈ q'.emitted
  hostAcked : ∀ s ∈ q.hostAcked, s ∈ q'.hostAcked

theorem grows_of_transition (ht : Transition X c q a q') : q.Grows q' := by
  cases ht with
  | @arrive room deliveries hpc => exact ⟨⟨deliveries, rfl⟩, fun _ h => h, fun _ h => h, fun _ h => h⟩
  | insert hpc =>
    exact ⟨⟨[], (List.append_nil _).symm⟩, fun _ h => List.mem_append_left _ h, fun _ h => h,
      fun _ h => h⟩
  | emit hpc =>
    exact ⟨⟨[], (List.append_nil _).symm⟩, fun _ h => h, fun _ h => List.mem_append_left _ h,
      fun _ h => h⟩
  | ack hcancel =>
    exact ⟨⟨[], (List.append_nil _).symm⟩, fun _ h => h, fun _ h => h,
      fun _ h => List.mem_append_left _ h⟩
  | _ => exact ⟨⟨[], (List.append_nil _).symm⟩, fun _ h => h, fun _ h => h, fun _ h => h⟩

theorem Grows.hostAcked_mono (hg : q.Grows q') {id : ℕ} (h : q.HostAcked id) : q'.HostAcked id := by
  obtain ⟨e, he, hid, hs⟩ := h
  exact ⟨e, hg.emitted e he, hid, hg.hostAcked _ hs⟩

theorem Grows.refused_mono (hg : q.Grows q') {id : ℕ} (h : q.Refused X c id) :
    q'.Refused X c id := by
  obtain ⟨d, g, hd, hgiven, hid, htext⟩ := h
  obtain ⟨more, hmore⟩ := hg.received
  refine ⟨d, g, ?_, hg.given g hgiven, hid, htext⟩
  rw [hmore, List.getElem?_append_left (List.getElem?_eq_some_iff.mp hd).1, hd]

theorem Grows.names_mono (hg : q.Grows q') {position : Json} (h : q.Names position) :
    q'.Names position := fun s hs => hg.hostAcked s (h s hs)

theorem earned_log (hi : q.Earned X c) {call : Call} {id : ℕ} {receipt : Json}
    (h : call = .ack → q.HostAcked id ∨ q.Refused X c id) :
    ∀ s ∈ q.log ++ [(⟨call, id, receipt⟩ : Settlement)], s.call = .ack →
      q.HostAcked s.id ∨ q.Refused X c s.id := by
  intro s hs hcall
  rcases List.mem_append.mp hs with hs | hs
  · exact hi.log s hs hcall
  · obtain rfl := List.mem_singleton.mp hs
    exact h hcall

theorem Earned.receives (hi : q.Earned X c) (hg : q.Grows q') (hsettles : q'.settles = q.settles)
    (hsettler : q'.settler = q.settler) (hlog : q'.log = q.log)
    (hsource : ∀ items, q'.receiver ≠ .acking items)
    (hrefused : ∀ i seq rest, q'.receiver ≠ .taking i seq rest)
    (hrejecting : ∀ i rest, q'.receiver ≠ .rejecting i rest) : q'.Earned X c where
  queued := fun p hp => hg.names_mono (hi.queued p (hsettles ▸ hp))
  taking := fun p hp => hg.names_mono (hi.taking p (hsettler ▸ hp))
  acking := fun h hh => hg.hostAcked_mono (hi.acking h (hsettler ▸ hh))
  source := hsource
  refused := fun i seq rest h => absurd h (hrefused i seq rest)
  rejecting := fun i rest h => absurd h (hrejecting i rest)
  log := fun s hs hcall => (hi.log s (hlog ▸ hs) hcall).imp hg.hostAcked_mono hg.refused_mono

theorem earned_step (hsource : c.eventSource = true) (hseqs : q.Seqs) (hreal : q.Real)
    (hi : q.Earned X c) (hok : HonestHost q a) (ht : Transition X c q a q') : q'.Earned X c := by
  have hg := grows_of_transition ht
  cases ht with
  | @walk _ pc _ _ _ hfree hpc =>
    refine hi.receives hg rfl rfl rfl (fun items h => ?_) (fun i seq rest h => ?_)
      (fun i rest h => ?_)
    all_goals
      cases (h : pc = _)
      exact hpc
  | quit | room | arrive | turnAway | keep | leave | insert | fits | emit =>
    exact hi.receives hg rfl rfl rfl (fun _ => nofun) (fun _ _ _ => nofun) (fun _ _ => nofun)
  | consume hpc hsource' => exact absurd (hsource.symm.trans hsource') nofun
  | releaseNow hpc =>
    exact { hi with
      source := fun _ => nofun
      refused := fun _ _ _ => nofun
      rejecting := fun _ _ => nofun
      log := earned_log hi nofun }
  | ackNow hpc => exact absurd hpc (hi.source _)
  | refused hpc htext =>
    refine { hi with
      source := fun _ => nofun
      refused := fun i seq rest h => ?_
      rejecting := fun _ _ => nofun }
    cases h
    exact htext
  | @takeBack i seq rest hpc =>
    -- the event was refused at the position it was given
    have htext := hi.refused i seq rest hpc
    have hcur : q.receiver.current = some (i, seq) := by rw [hpc]; rfl
    refine { hi with
      source := fun _ => nofun
      refused := fun _ _ _ => nofun
      rejecting := fun j rest' h => ?_ }
    cases h
    exact ⟨i.delivery, ⟨i.id, seq⟩, hreal.items i (mem_items_of_current hcur),
      (hseqs.current i seq hcur).1, rfl, htext⟩
  | @reject i rest hpc =>
    exact { hi with
      source := fun _ => nofun
      refused := fun _ _ _ => nofun
      rejecting := fun _ _ => nofun
      log := earned_log hi fun _ => .inr (hi.rejecting i rest hpc) }
  | @wait pc hfree hpc =>
    refine { hi with taking := fun p h => ?_, acking := fun held h => ?_ }
    all_goals
      cases (h : pc = _)
      exact absurd hpc id
  | expire | die | miss | drain | finish =>
    exact { hi with taking := fun _ => nofun, acking := fun _ => nofun }
  | releaseLate hpc | releaseHeld hpc =>
    exact { hi with
      taking := fun _ => nofun
      acking := fun _ => nofun
      log := earned_log hi nofun }
  | @hear deadline position rest hpc hsettles =>
    have hqueued := hi.queued
    rw [hsettles] at hqueued
    refine { hi with
      queued := fun p hp => hqueued p (List.mem_cons_of_mem _ hp)
      taking := fun p h => ?_
      acking := fun _ => nofun }
    cases h
    exact hqueued position List.mem_cons_self
  | hearStop hpc hsettles =>
    have hqueued := hi.queued
    rw [hsettles] at hqueued
    exact { hi with
      queued := fun p hp => hqueued p (List.mem_cons_of_mem _ hp)
      taking := fun _ => nofun
      acking := fun _ => nofun }
  | @take position seq held hpc hseq hheld =>
    refine { hi with taking := fun _ => nofun, acking := fun h hh => ?_ }
    cases hh
    -- the number names the delivery it was given to, which is the one that was emitted under it
    have hacked := hi.taking position hpc seq hseq
    obtain ⟨e, he, hes⟩ := hseqs.hostAcked seq hacked
    exact ⟨e, he, hseqs.id_eq (hseqs.emitted e he) (hseqs.window seq held hheld) hes,
      hes.symm ▸ hacked⟩
  | ackTaken hpc =>
    exact { hi with
      taking := fun _ => nofun
      acking := fun _ => nofun
      log := earned_log hi fun _ => .inl (hi.acking _ hpc) }
  | @ack position hcancel =>
    refine { hi with
      queued := fun p hp => ?_
      taking := fun p h => hg.names_mono (hi.taking p h)
      acking := fun h hh => hg.hostAcked_mono (hi.acking h hh)
      log := fun s hs hcall => (hi.log s hs hcall).imp hg.hostAcked_mono id }
    rcases List.mem_append.mp hp with hp | hp
    · exact hg.names_mono (hi.queued p hp)
    · obtain rfl : p = position := by simpa using hp
      intro s hs
      rw [HonestHost, hs, Option.all_some] at hok
      refine List.mem_append_right _ (Option.mem_toList.mpr ?_)
      rw [hs, Option.filter_some, if_pos hok]
  | sendStop hcancel =>
    refine { hi with queued := fun p hp => hi.queued p ?_ }
    simpa using hp
  | cancel | join | joinSettler | tick => exact { hi with }

end EarnedSteps

/-- **No message is removed without its own acknowledgement.** In every run of an event source whose
host acknowledges only what was emitted, in any order and any number of times, every call of `ack` is
for a delivery that was received, with the receipt it came with, and either the host acknowledged the
position emitted for that very delivery or the host could not have taken its event. -/
theorem acked_is_acknowledged {X : Externs} {c : Config} {now : Nanos} {q : Queue}
    (hsource : c.eventSource = true) (hr : Reach (Steps X c) HonestHost (start now) q) :
    ∀ s ∈ q.log, s.call = .ack →
      q.Came s.id s.receipt ∧ (q.HostAcked s.id ∨ q.Refused X c s.id) := by
  have h : q.Seqs ∧ q.Real ∧ q.Earned X c := by
    refine invariant_of_transition (I := fun q => q.Seqs ∧ q.Real ∧ q.Earned X c) hr
      ⟨seqs_start now, real_start now, earned_start now⟩ fun u a v hu hok ht => ?_
    exact ⟨seqs_step hu.1 ht, real_step hu.2.1 ht,
      earned_step hsource hu.1 hu.2.1 hu.2.2 hok ht⟩
  exact fun s hs hcall => ⟨h.2.1.log s hs, h.2.2.log s hs hcall⟩

/-- A position as the watch writes it. -/
def position (seq : ℕ) : Json :=
  .obj [("seq", .num (.posInt seq)), ("v", .num (.posInt cursorVersion))]

/-- A delivery expires and comes back; the host acknowledges the first, too late, then the second. -/
def comesBack : List Act :=
  [.receiver, .connected (.ok ()), .receiver, .received (.ok [message "a"]), .receiver, .receiver,
    .receiver, .receiver, .receiver, .tick (millis 60000), .settler, .settler, .settler, .settler,
    .receiver, .receiver, .received (.ok [message "a"]), .receiver, .receiver, .receiver, .receiver,
    .ack (position 0), .settler, .settler, .settler, .settler, .settler,
    .ack (position 1), .settler, .settler, .settler]

theorem acked_is_acknowledged_comesBack :
    ∃ q, (start 0).run plainExterns plainConfig (fun q a => decide (HonestHost q a)) comesBack =
        some q ∧ (q.log.map fun s => (s.call, s.id)) = [(.release, 0), (.ack, 1)] ∧
      ∀ s ∈ q.log, s.call = .ack → q.HostAcked s.id ∨ q.Refused plainExterns plainConfig s.id := by
  obtain ⟨q, hq, hlog⟩ := end_of_run
    (r := (start 0).run plainExterns plainConfig (fun q a => decide (HonestHost q a)) comesBack)
    (P := fun q => (q.log.map fun s => (s.call, s.id)) = [(.release, 0), (.ack, 1)])
    (by decide +kernel)
  exact ⟨q, hq, hlog, fun s hs hcall => (acked_is_acknowledged rfl
    ((reach_run hq).mono fun _ _ h => of_decide_eq_true h) s hs hcall).2⟩

end Queue

end McpgSdk
