import McpgSdk.Queue.Window

/-!
# Who settles a delivery

At any time a delivery is in the hands of one of the threads, in the window, or settled. A step moves
deliveries between these places (`owned`) and `receive` adds new ones. One step is different: when
`offer` gives up on an event the host cannot take, it removes the delivery from the window without
looking whether it still was there, and settles it in any case.

* **`owned_step`**: what a step does to the places, with that exception;
* **`settled_at_most_once`**: a run in which `offer` always finds its delivery in the window settles
  no delivery twice;
* `expired_then_rejected`: a delivery that expires while `offer` gives up on it is settled twice;
* `covered_of_reach`: in every run, each delivery is in one of the places.
-/

set_option autoImplicit false

namespace McpgSdk

open OrdMap

namespace Queue

/-! ## Places -/

/-- The deliveries in the window. -/
def windowIds (m : BTreeMap ℕ Held) : List ℕ := m.toList.map fun sh => sh.2.id

/-- Every place of every delivery. -/
def owned (q : Queue) : List ℕ :=
  q.receiver.hand.map Item.id ++ windowIds q.pending ++ q.settler.hand.map Held.id ++
    q.log.map Settlement.id

theorem windowIds_insert {m : BTreeMap ℕ Held} {s : ℕ} (hs : m[s]? = none) (h : Held) :
    (windowIds (m.insert s h)).Perm (h.id :: windowIds m) :=
  (perm_toList_insert hs).map _

theorem windowIds_erase {m : BTreeMap ℕ Held} {s : ℕ} {h : Held} (hs : m[s]? = some h) :
    (windowIds m).Perm (h.id :: windowIds (m.erase s)) :=
  (perm_toList_erase hs).map _

theorem erase_of_none {m : BTreeMap ℕ Held} {s : ℕ} (hs : m[s]? = none) : m.erase s = m := by
  refine Std.ExtTreeMap.ext_getElem? fun k => ?_
  rw [getElem?_erase_ite]
  split_ifs with hk
  · rw [hk, hs]
  · rfl

theorem windowIds_filter (m : BTreeMap ℕ Held) (f : Held → Bool) :
    (windowIds m).Perm (((m.toList.map Prod.snd).filter f).map Held.id ++
      windowIds (m.filter fun _ h => !f h)) := by
  have h := (List.filter_append_perm (fun sh : ℕ × Held => f sh.2) m.toList).symm.map
    fun sh => sh.2.id
  rw [List.map_append] at h
  rw [windowIds, windowIds, Std.ExtTreeMap.toList_filter, List.filter_map, List.map_map]
  exact h

/-- The deliveries a step receives. -/
def newIds (q q' : Queue) : List ℕ :=
  List.range' q.received.length (q'.received.length - q.received.length)

/-- `offer` takes back a delivery that left the window. -/
def TakesNothing (q : Queue) (a : Act) : Prop :=
  a = .receiver ∧ ∃ i seq rest, q.receiver = .taking i seq rest ∧ q.pending[seq]? = none

section Owned

variable {X : Externs} {c : Config} {q q' : Queue} {a : Act}

theorem owned_of_count (hreceived : q'.received = q.received)
    (h : ∀ x, (owned q').count x = (owned q).count x) :
    (owned q').Perm (owned q ++ newIds q q') := by
  rw [newIds, hreceived, Nat.sub_self, List.range'_zero, List.append_nil]
  exact List.perm_iff_count.mpr h

theorem owned_of_eq (hreceived : q'.received = q.received)
    (hreceiver : q'.receiver.hand = q.receiver.hand) (hpending : q'.pending = q.pending)
    (hsettler : q'.settler.hand = q.settler.hand) (hlog : q'.log = q.log) :
    (owned q').Perm (owned q ++ newIds q q') :=
  owned_of_count hreceived fun x => by rw [owned, owned, hreceiver, hpending, hsettler, hlog]

/-- **What a step does to the places**: it moves deliveries and adds those it receives, unless `offer`
takes back a delivery that left the window, which is then in two places. -/
theorem owned_step (hi : q.Seqs) (ht : Transition X c q a q') :
    (owned q').Perm (owned q ++ newIds q q') ∨
      TakesNothing q a ∧ q'.received = q.received ∧ ∃ id, (owned q').Perm (id :: owned q) := by
  cases ht with
  | walk hfree hpc =>
    exact .inl (owned_of_eq rfl (hpc.free.holds_nothing.1.trans hfree.holds_nothing.1.symm) rfl rfl
      rfl)
  | quit hfree hstop => exact .inl (owned_of_eq rfl hfree.holds_nothing.1.symm rfl rfl rfl)
  | room hpc hroom | turnAway hpc hstop | keep hpc hsource | consume hpc hsource | leave hpc
  | fits hpc htext | refused hpc htext | emit hpc =>
    exact .inl (owned_of_eq rfl (by rw [hpc]; rfl) rfl rfl rfl)
  | @arrive room deliveries hpc =>
    left
    have hnew : newIds q { q with
        receiver := .got (itemsOf q.received.length deliveries)
        received := q.received ++ deliveries } =
        (itemsOf q.received.length deliveries).map Item.id := by
      simp [newIds, ids_itemsOf]
    rw [hnew]
    refine List.perm_iff_count.mpr fun x => ?_
    simp only [owned, hpc, ReceiverPc.hand, List.map_nil, List.nil_append, List.count_append]
    omega
  | releaseNow hpc | ackNow hpc | reject hpc =>
    refine .inl (owned_of_count rfl fun x => ?_)
    simp only [owned, settle, hpc, ReceiverPc.hand, List.map_append, List.map_cons, List.map_nil,
      List.count_append, List.count_cons, List.count_nil]
    omega
  | @insert i rest hpc =>
    refine .inl (owned_of_count rfl fun x => ?_)
    have hfresh : q.pending[q.nextSeq]? = none := by
      by_contra hne
      obtain ⟨h, hh⟩ := Option.ne_none_iff_exists'.mp hne
      exact absurd (hi.below _ (hi.window _ h hh)) (lt_irrefl _)
    have hw := (windowIds_insert hfresh ⟨i.id, i.delivery.receipt, q.clock⟩).count_eq x
    simp only [owned, hpc, ReceiverPc.hand, List.map_cons, List.count_append, List.count_cons,
      hw]
    omega
  | @takeBack i seq rest hpc =>
    cases hseq : q.pending[seq]? with
    | none =>
      refine .inr ⟨⟨rfl, i, seq, rest, hpc, hseq⟩, rfl, i.id, ?_⟩
      simp only [owned, hpc, ReceiverPc.hand, erase_of_none hseq, List.map_cons, List.cons_append]
      exact List.Perm.refl _
    | some h =>
      have hid : h.id = i.id := hi.id_eq (hi.window seq h hseq)
        (hi.current i seq (by rw [hpc]; rfl)).1 rfl
      refine .inl (owned_of_count rfl fun x => ?_)
      have hw := (windowIds_erase hseq).count_eq x
      simp only [owned, hpc, ReceiverPc.hand, List.map_cons, List.count_append, List.count_cons,
        hid] at hw ⊢
      omega
  | expire hpc =>
    refine .inl (owned_of_count rfl fun x => ?_)
    have hw := (windowIds_filter q.pending (isLate c q.clock)).count_eq x
    simp only [owned, hpc, SettlerPc.hand, late, List.count_append, List.map_nil,
      List.count_nil] at hw ⊢
    omega
  | releaseLate hpc | ackTaken hpc | releaseHeld hpc =>
    refine .inl (owned_of_count rfl fun x => ?_)
    simp only [owned, settle, hpc, SettlerPc.hand, List.map_append, List.map_cons, List.map_nil,
      List.count_append, List.count_cons, List.count_nil]
    omega
  | wait hfree hpc => exact .inl (owned_of_eq rfl rfl rfl (hpc.hand_eq.trans hfree.hand_eq.symm) rfl)
  | die hpc | hear hpc hsettles | hearStop hpc hsettles | miss hpc hmiss | finish hpc =>
    exact .inl (owned_of_eq rfl rfl rfl (by rw [hpc]; rfl) rfl)
  | take hpc hseq hheld =>
    refine .inl (owned_of_count rfl fun x => ?_)
    have hw := (windowIds_erase hheld).count_eq x
    simp only [owned, hpc, SettlerPc.hand, List.map_cons, List.map_nil, List.count_append,
      List.count_cons, List.count_nil] at hw ⊢
    omega
  | drain hpc =>
    refine .inl (owned_of_count rfl fun x => ?_)
    have hnone : (∅ : BTreeMap ℕ Held).toList = [] := Std.ExtTreeMap.toList_eq_nil_iff.mpr rfl
    simp only [owned, hpc, hnone, SettlerPc.hand, windowIds, List.map_map, List.count_append,
      List.map_nil, List.count_nil, Function.comp_def]
    omega
  | ack | cancel | join | sendStop | joinSettler | tick => exact .inl (owned_of_eq rfl rfl rfl rfl rfl)

theorem received_grows (ht : Transition X c q a q') : q.received.length ≤ q'.received.length := by
  cases ht <;> first | exact le_rfl | simp

end Owned

/-! ## Runs -/

section Runs

variable {X : Externs} {c : Config} {now : Nanos} {q : Queue}

/-- Every delivery is in some place. -/
def Covered (q : Queue) : Prop := ∀ id < q.received.length, id ∈ owned q

/-- **Each delivery is in one of the places**, in every run. -/
theorem covered_of_reach {ok : Queue → Act → Prop} (hr : Reach (Steps X c) ok (start now) q) :
    q.Covered := by
  have h : q.Seqs ∧ q.Covered := by
    refine invariant_of_transition (I := fun q => q.Seqs ∧ q.Covered) hr
      ⟨seqs_start now, fun id hid => absurd hid (Nat.not_lt_zero id)⟩ fun u a v hu _ ht => ?_
    refine ⟨seqs_step hu.1 ht, fun id hid => ?_⟩
    rcases owned_step hu.1 ht with hperm | ⟨-, hreceived, id', hperm⟩
    · refine hperm.mem_iff.mpr (List.mem_append.mpr ?_)
      by_cases hold : id < u.received.length
      · exact .inl (hu.2 id hold)
      · right
        rw [newIds, List.mem_range'_1]
        omega
    · rw [hreceived] at hid
      exact hperm.mem_iff.mpr (List.mem_cons_of_mem id' (hu.2 id hid))
  exact h.2

/-- The sequence number `offer` takes back. -/
def ReceiverPc.takenBack : ReceiverPc → Option ℕ
  | taking _ seq _ => some seq
  | _ => none

/-- What `offer` takes back is still in the window. -/
def StillHeld (q : Queue) : Act → Prop
  | .receiver => q.receiver.takenBack.all (fun seq => q.pending.contains seq) = true
  | _ => True

instance (q : Queue) : DecidablePred (StillHeld q)
  | .receiver => inferInstanceAs (Decidable (_ = true))
  | .connected _ | .received _ | .settler | .ack _ | .cancel | .tick _ => .isTrue trivial

theorem not_takesNothing {a : Act} (h : StillHeld q a) : ¬ TakesNothing q a := by
  rintro ⟨rfl, i, seq, rest, hpc, hnone⟩
  simp only [StillHeld, hpc, ReceiverPc.takenBack, Option.all_some,
    Std.ExtTreeMap.contains_eq_isSome_getElem?, hnone] at h
  cases h

/-- **No delivery is settled twice**, in every run in which `offer` finds what it takes back in the
window: the calls of `ack` and `release` are for distinct deliveries. -/
theorem settled_at_most_once (hr : Reach (Steps X c) StillHeld (start now) q) :
    (q.log.map Settlement.id).Nodup := by
  have h : q.Seqs ∧ (owned q).Perm (List.range' 0 q.received.length) := by
    refine invariant_of_transition
      (I := fun q => q.Seqs ∧ (owned q).Perm (List.range' 0 q.received.length)) hr
      ⟨seqs_start now, List.Perm.refl _⟩ fun u a v hu hok ht => ?_
    refine ⟨seqs_step hu.1 ht, ?_⟩
    rcases owned_step hu.1 ht with hperm | ⟨hnothing, -⟩
    · refine hperm.trans ((hu.2.append_right _).trans ?_)
      have hle := received_grows ht
      rw [newIds, ← Nat.add_sub_cancel' hle, Nat.add_sub_cancel_left, ← List.range'_append_1,
        Nat.zero_add]
    · exact absurd hnothing (not_takesNothing hok)
  have hnodup : (owned q).Nodup := h.2.nodup_iff.mpr List.nodup_range'
  exact hnodup.sublist (List.sublist_append_right _ _)

end Runs

/-- An event past the payload limit arrives and is offered. -/
def offerTooLarge : List Act :=
  [.receiver, .connected (.ok ()), .receiver, .received (.ok [message "too large"]), .receiver,
    .receiver]

theorem settled_at_most_once_offerTooLarge :
    ∃ q, (start 0).run plainExterns plainConfig (fun q a => decide (StillHeld q a))
        (offerTooLarge ++ [.receiver, .receiver, .receiver]) = some q ∧
      q.log.map Settlement.call = [.ack] ∧ (q.log.map Settlement.id).Nodup := by
  obtain ⟨q, hq, hlog⟩ := end_of_run
    (r := (start 0).run plainExterns plainConfig (fun q a => decide (StillHeld q a))
      (offerTooLarge ++ [.receiver, .receiver, .receiver]))
    (P := fun q => q.log.map Settlement.call = [.ack]) (by decide +kernel)
  exact ⟨q, hq, hlog,
    settled_at_most_once ((reach_run hq).mono fun _ _ h => of_decide_eq_true h)⟩

/-- The event times out, and the settling thread expires it, before `offer` gives up on it. -/
def expiresMeanwhile : List Act :=
  offerTooLarge ++ [.tick (millis 60000), .settler, .receiver, .receiver, .receiver, .settler]

/-- **A delivery is settled twice**: released by the settling thread and acked by `offer`. -/
theorem expired_then_rejected :
    ¬ ∀ (X : Externs) (c : Config) (now : Nanos) (q : Queue), c.options.validate = .ok () →
      Reach (Steps X c) anyStep (start now) q → (q.log.map Settlement.id).Nodup := by
  intro H
  obtain ⟨q, hq, hlog⟩ := end_of_run
    (r := (start 0).run plainExterns plainConfig (fun _ _ => true) expiresMeanwhile)
    (P := fun q => q.log.map Settlement.id = [0, 0]) (by decide +kernel)
  have hnodup := H plainExterns plainConfig 0 q rfl ((reach_run hq).mono fun _ _ _ => trivial)
  rw [hlog] at hnodup
  exact absurd hnodup (by decide)

end Queue

end McpgSdk
