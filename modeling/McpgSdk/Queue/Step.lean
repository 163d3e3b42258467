import McpgSdk.Queue.Model

/-!
# What a step of a queue watch can do

* `hand`, `unoffered`, `current`: what the receiving thread holds; `SettlerPc.hand`: what the settling
  thread holds;
* `Transition`: every way the system can move, one constructor for each kind of statement;
* **`transition_of_step`**: a step is one of these. Every invariant of the queue is proved over
  `Transition`, and none unfolds a thread.
-/

set_option autoImplicit false

namespace McpgSdk

namespace Queue

/-! ## What the threads hold -/

namespace ReceiverPc

/-- The deliveries the receiving thread must still settle or offer. -/
@[simp] def hand : ReceiverPc → List Item
  | got items | releasing items | acking items | offering items => items
  | offered _ _ rest | emitting _ _ _ rest | taking _ _ rest => rest
  | rejecting i rest => i :: rest
  | _ => []

/-- The deliveries received and not yet offered. -/
@[simp] def unoffered : ReceiverPc → List Item
  | rejecting _ rest => rest
  | pc => pc.hand

/-- The delivery in the window whose event is not emitted yet. -/
@[simp] def current : ReceiverPc → Option (Item × ℕ)
  | offered i seq _ | emitting i seq _ _ | taking i seq _ => some (i, seq)
  | _ => none

/-- The thread is between two batches. -/
@[simp] def Idle : ReceiverPc → Prop
  | top | connecting | pausing _ | waitRoom => True
  | _ => False

/-- The thread holds nothing and goes on. -/
@[simp] def Free : ReceiverPc → Prop
  | top | connecting | pausing _ | waitRoom | receiving _ | acking [] | offering [] => True
  | _ => False

end ReceiverPc

namespace SettlerPc

/-- The deliveries the settling thread must still settle. -/
@[simp] def hand : SettlerPc → List Held
  | releasing late => late
  | acking h => [h]
  | drained held => held
  | _ => []

/-- The thread was told to stop. -/
@[simp] def Leaving : SettlerPc → Prop
  | draining | drained _ | done => True
  | _ => False

/-- The thread holds nothing and goes on. -/
@[simp] def Free : SettlerPc → Prop
  | top | releasing [] | arming | waiting _ => True
  | _ => False

end SettlerPc

theorem ReceiverPc.Free.holds_nothing {pc : ReceiverPc} (h : pc.Free) :
    pc.hand = [] ∧ pc.unoffered = [] ∧ pc.current = none := by
  cases pc with
  | acking items => cases items <;> simp_all
  | offering items => cases items <;> simp_all
  | top | connecting | pausing | waitRoom | receiving => exact ⟨rfl, rfl, rfl⟩
  | got | releasing | offered | emitting | taking | rejecting | done => exact absurd h id

theorem ReceiverPc.Idle.free {pc : ReceiverPc} (h : pc.Idle) : pc.Free := by
  cases pc <;> first | exact h | exact absurd h id

theorem SettlerPc.Free.hand_eq {pc : SettlerPc} (h : pc.Free) : pc.hand = [] := by
  cases pc with
  | releasing late => cases late <;> simp_all
  | top | arming | waiting => rfl
  | taking | acking | draining | drained | done | dead => exact absurd h id

/-! ## Deadlines -/

/-- A deadline in the window is past what `Instant` can hold. -/
def Overflows (c : Config) (q : Queue) : Prop :=
  ∃ sh ∈ q.pending.toList, c.holds (sh.2.atTime + c.options.ackTimeout) = false

theorem mapM_addInstant_eq_none {c : Config} {d : Nanos} {l : List (ℕ × Held)} :
    (l.mapM fun sh => c.addInstant sh.2.atTime d) = none ↔
      ∃ sh ∈ l, c.holds (sh.2.atTime + d) = false := by
  induction l with
  | nil => simp
  | cons sh l ih =>
    rw [List.mapM_cons, List.exists_mem_cons_iff, ← ih]
    cases hholds : c.holds (sh.2.atTime + d) with
    | false => simp [Config.addInstant, hholds]
    | true => cases l.mapM fun sh => c.addInstant sh.2.atTime d <;> simp [Config.addInstant, hholds]

theorem nextExpiry_eq_none {c : Config} {q : Queue} : nextExpiry c q = none ↔ q.Overflows c := by
  rw [nextExpiry, Option.map_eq_none_iff, mapM_addInstant_eq_none, Overflows]

/-! ## Transitions -/

/-- Every way a queue watch can move. -/
inductive Transition (X : Externs) (c : Config) (q : Queue) : Act → Queue → Prop
  /-- The receiving thread goes on with nothing in its hands. -/
  | walk {a : Act} {pc : ReceiverPc} {connected : Bool} {backoff : Nanos} {texts : List String}
      (hfree : q.receiver.Free) (hpc : pc.Idle) : Transition X c q a
        { q with receiver := pc, connected := connected, backoff := backoff, texts := texts }
  | quit (hfree : q.receiver.Free) (hstop : q.stop = true) :
      Transition X c q .receiver { q with receiver := .done }
  | room (hpc : q.receiver = .waitRoom) (hroom : q.pending.size < c.options.maxInFlight) :
      Transition X c q .receiver
        { q with receiver := .receiving (c.options.maxInFlight - q.pending.size) }
  | arrive {room : ℕ} {deliveries : List Delivery} (hpc : q.receiver = .receiving room) :
      Transition X c q (.received (.ok deliveries)) { q with
        receiver := .got (itemsOf q.received.length deliveries)
        received := q.received ++ deliveries }
  | turnAway {items : List Item} (hpc : q.receiver = .got items) (hstop : q.stop = true) :
      Transition X c q .receiver { q with receiver := .releasing items }
  | keep {items : List Item} (hpc : q.receiver = .got items) (hsource : c.eventSource = true) :
      Transition X c q .receiver { q with receiver := .offering items }
  | consume {items : List Item} (hpc : q.receiver = .got items) (hsource : c.eventSource = false) :
      Transition X c q .receiver { q with receiver := .acking items }
  | releaseNow {i : Item} {rest : List Item} (hpc : q.receiver = .releasing (i :: rest)) :
      Transition X c q .receiver
        { settle .release i.id i.delivery.receipt q with receiver := .releasing rest }
  | leave (hpc : q.receiver = .releasing []) : Transition X c q .receiver { q with receiver := .done }
  | ackNow {i : Item} {rest : List Item} (hpc : q.receiver = .acking (i :: rest)) :
      Transition X c q .receiver
        { settle .ack i.id i.delivery.receipt q with receiver := .acking rest }
  | insert {i : Item} {rest : List Item} (hpc : q.receiver = .offering (i :: rest)) :
      Transition X c q .receiver { q with
        receiver := .offered i q.nextSeq rest
        nextSeq := q.nextSeq + 1
        pending := q.pending.insert q.nextSeq ⟨i.id, i.delivery.receipt, q.clock⟩
        given := q.given ++ [⟨i.id, q.nextSeq⟩] }
  | fits {i : Item} {seq : ℕ} {text : String} {rest : List Item}
      (hpc : q.receiver = .offered i seq rest)
      (htext : offerText X c i.delivery.event seq = some text) :
      Transition X c q .receiver { q with receiver := .emitting i seq text rest }
  | refused {i : Item} {seq : ℕ} {rest : List Item} (hpc : q.receiver = .offered i seq rest)
      (htext : offerText X c i.delivery.event seq = none) :
      Transition X c q .receiver { q with receiver := .taking i seq rest }
  | emit {i : Item} {seq : ℕ} {text : String} {rest : List Item}
      (hpc : q.receiver = .emitting i seq text rest) : Transition X c q .receiver { q with
        receiver := .offering rest
        emitted := q.emitted ++ [⟨i.id, seq⟩]
        texts := q.texts ++ [text] }
  | takeBack {i : Item} {seq : ℕ} {rest : List Item} (hpc : q.receiver = .taking i seq rest) :
      Transition X c q .receiver
        { q with receiver := .rejecting i rest, pending := q.pending.erase seq }
  | reject {i : Item} {rest : List Item} (hpc : q.receiver = .rejecting i rest) :
      Transition X c q .receiver
        { settle .ack i.id i.delivery.receipt q with receiver := .offering rest }
  | expire (hpc : q.settler = .top) : Transition X c q .settler { q with
      settler := .releasing (late c q)
      pending := q.pending.filter fun _ h => !isLate c q.clock h
      expired := q.expired ++ (late c q).map Held.id }
  | releaseLate {h : Held} {rest : List Held} (hpc : q.settler = .releasing (h :: rest)) :
      Transition X c q .settler
        { settle .release h.id h.receipt q with settler := .releasing rest }
  /-- The settling thread goes on with nothing in its hands. -/
  | wait {pc : SettlerPc} (hfree : q.settler.Free) (hpc : pc.Free) :
      Transition X c q .settler { q with settler := pc }
  | hear {deadline : Nanos} {position : Json} {rest : List Settle}
      (hpc : q.settler = .waiting deadline) (hsettles : q.settles = .ack position :: rest) :
      Transition X c q .settler { q with settler := .taking position, settles := rest }
  | hearStop {deadline : Nanos} {rest : List Settle} (hpc : q.settler = .waiting deadline)
      (hsettles : q.settles = .stop :: rest) :
      Transition X c q .settler { q with settler := .draining, settles := rest }
  | miss {position : Json} (hpc : q.settler = .taking position)
      (hmiss : ∀ seq, positionSeq position = some seq → q.pending[seq]? = none) :
      Transition X c q .settler { q with settler := .top }
  | take {position : Json} {seq : ℕ} {h : Held} (hpc : q.settler = .taking position)
      (hseq : positionSeq position = some seq) (hheld : q.pending[seq]? = some h) :
      Transition X c q .settler { q with settler := .acking h, pending := q.pending.erase seq }
  /-- The settling thread panics. -/
  | die (hpc : q.settler = .arming) (hoverflows : q.Overflows c) :
      Transition X c q .settler { q with settler := .dead }
  | ackTaken {h : Held} (hpc : q.settler = .acking h) : Transition X c q .settler
      { settle .ack h.id h.receipt q with settler := .top }
  | drain (hpc : q.settler = .draining) : Transition X c q .settler
      { q with settler := .drained (q.pending.toList.map Prod.snd), pending := ∅ }
  | releaseHeld {h : Held} {rest : List Held} (hpc : q.settler = .drained (h :: rest)) :
      Transition X c q .settler
        { settle .release h.id h.receipt q with settler := .drained rest }
  | finish (hpc : q.settler = .drained []) : Transition X c q .settler { q with settler := .done }
  | ack {position : Json} (hcancel : q.cancel = .idle) : Transition X c q (.ack position) { q with
      settles := q.settles ++ [.ack position]
      hostAcked := q.hostAcked ++
        ((positionSeq position).filter fun s => q.emitted.any fun e => e.seq == s).toList }
  | cancel (hcancel : q.cancel = .idle) : Transition X c q .cancel
      { q with cancel := .stopping, stop := true }
  | join (hcancel : q.cancel = .stopping) (hpc : q.receiver = .done) :
      Transition X c q .cancel { q with cancel := .joined }
  | sendStop (hcancel : q.cancel = .joined) : Transition X c q .cancel
      { q with cancel := .stopSent, settles := q.settles ++ [.stop] }
  | joinSettler (hcancel : q.cancel = .stopSent) (hgone : q.settler.gone = true) :
      Transition X c q .cancel { q with cancel := .returned }
  | tick {d : Nanos} : Transition X c q (.tick d) { q with clock := q.clock + d }

section Inversion

variable {X : Externs} {c : Config} {q q' : Queue}

theorem transition_of_receiver (h : receiverNext X c q = some q') :
    Transition X c q .receiver q' := by
  cases hpc : q.receiver with
  | top =>
    simp only [receiverNext, hpc] at h
    split_ifs at h <;> cases h
    · exact .quit (by simp [hpc]) ‹_›
    · exact .walk (by simp [hpc]) (by simp)
    · exact .walk (by simp [hpc]) (by simp)
  | pausing wakeAt =>
    simp only [receiverNext, hpc] at h
    split_ifs at h
    cases h
    exact .walk (by simp [hpc]) (by simp)
  | waitRoom =>
    simp only [receiverNext, hpc] at h
    split_ifs at h <;> cases h
    · exact .quit (by simp [hpc]) ‹_›
    · exact .room hpc ‹_›
  | got items =>
    simp only [receiverNext, hpc] at h
    split_ifs at h with hstop hsource <;> cases h
    · exact .turnAway hpc hstop
    · exact .keep hpc hsource
    · exact .consume hpc (Bool.eq_false_iff.mpr hsource)
  | releasing items =>
    cases items <;> simp only [receiverNext, hpc] at h <;> cases h
    · exact .leave hpc
    · exact .releaseNow hpc
  | acking items =>
    cases items <;> simp only [receiverNext, hpc] at h <;> cases h
    · exact .walk (by simp [hpc]) (by simp)
    · exact .ackNow hpc
  | offering items =>
    cases items <;> simp only [receiverNext, hpc] at h <;> cases h
    · exact .walk (by simp [hpc]) (by simp)
    · exact .insert hpc
  | offered i seq rest =>
    simp only [receiverNext, hpc] at h
    split at h <;> cases h
    · exact .fits hpc ‹_›
    · exact .refused hpc ‹_›
  | emitting i seq text rest =>
    simp only [receiverNext, hpc] at h
    cases h
    exact .emit hpc
  | taking i seq rest =>
    simp only [receiverNext, hpc] at h
    cases h
    exact .takeBack hpc
  | rejecting i rest =>
    simp only [receiverNext, hpc] at h
    cases h
    exact .reject hpc
  | connecting => simp [receiverNext, hpc] at h
  | receiving room => simp [receiverNext, hpc] at h
  | done => simp [receiverNext, hpc] at h

theorem transition_of_connected {result : Except String Unit}
    (h : q.connectReturns result = some q') : Transition X c q (.connected result) q' := by
  cases result with
  | ok u =>
    simp only [connectReturns, Option.ite_none_right_eq_some] at h
    obtain ⟨hpc, h⟩ := h
    cases h
    exact .walk (by split at hpc <;> simp_all) (by simp)
  | error e =>
    simp only [connectReturns, Option.ite_none_right_eq_some] at h
    obtain ⟨hpc, h⟩ := h
    cases h
    exact .walk (by split at hpc <;> simp_all) (by simp)

theorem transition_of_received {result : Except String (List Delivery)}
    (h : q.receiveReturns result = some q') : Transition X c q (.received result) q' := by
  cases result with
  | ok deliveries =>
    simp only [receiveReturns, Option.ite_none_right_eq_some] at h
    obtain ⟨hpc, h⟩ := h
    split at hpc
    case h_2 => cases hpc
    case h_1 room hreceiving =>
      cases deliveries <;> cases h
      · exact .walk (by simp [hreceiving]) (by simp)
      · exact .arrive hreceiving
  | error e =>
    simp only [receiveReturns, Option.ite_none_right_eq_some] at h
    obtain ⟨hpc, h⟩ := h
    cases h
    exact .walk (by split at hpc <;> simp_all) (by simp [retry])

theorem transition_of_settler (h : settlerNext c q = some q') : Transition X c q .settler q' := by
  cases hpc : q.settler with
  | top =>
    simp only [settlerNext, hpc] at h
    cases h
    exact .expire hpc
  | releasing late =>
    cases late <;> simp only [settlerNext, hpc] at h <;> cases h
    · exact .wait (by simp [hpc]) (by simp)
    · exact .releaseLate hpc
  | arming =>
    simp only [settlerNext, hpc] at h
    split at h <;> cases h
    · exact .wait (by simp [hpc]) (by simp)
    · exact .die hpc (nextExpiry_eq_none.mp ‹_›)
  | waiting deadline =>
    simp only [settlerNext, hpc] at h
    split at h
    · cases h
      exact .hear hpc ‹_›
    · cases h
      exact .hearStop hpc ‹_›
    · split_ifs at h
      cases h
      exact .wait (by simp [hpc]) (by simp)
  | taking position =>
    simp only [settlerNext, hpc] at h
    split at h
    case h_1 seq held heq =>
      cases h
      obtain ⟨seq', hseq, hmap⟩ := Option.bind_eq_some_iff.mp heq
      obtain ⟨held', hheld, hpair⟩ := Option.map_eq_some_iff.mp hmap
      cases hpair
      exact .take hpc hseq hheld
    case h_2 heq =>
      cases h
      refine .miss hpc fun seq hseq => ?_
      rw [hseq, Option.bind_some, Option.map_eq_none_iff] at heq
      exact heq
  | acking held =>
    simp only [settlerNext, hpc] at h
    cases h
    exact .ackTaken hpc
  | draining =>
    simp only [settlerNext, hpc] at h
    cases h
    exact .drain hpc
  | drained held =>
    cases held <;> simp only [settlerNext, hpc] at h <;> cases h
    · exact .finish hpc
    · exact .releaseHeld hpc
  | done | dead => simp [settlerNext, hpc] at h

theorem transition_of_cancel (h : q.cancelNext = some q') : Transition X c q .cancel q' := by
  cases hc : q.cancel with
  | idle =>
    simp only [cancelNext, hc] at h
    cases h
    exact .cancel hc
  | stopping =>
    simp only [cancelNext, hc, Option.ite_none_right_eq_some] at h
    obtain ⟨hpc, h⟩ := h
    cases h
    exact .join hc (by split at hpc <;> simp_all)
  | joined =>
    simp only [cancelNext, hc] at h
    cases h
    exact .sendStop hc
  | stopSent =>
    simp only [cancelNext, hc, Option.ite_none_right_eq_some] at h
    obtain ⟨hgone, h⟩ := h
    cases h
    exact .joinSettler hc hgone
  | returned => simp [cancelNext, hc] at h

/-- **A step is one of the transitions.** -/
theorem transition_of_step {a : Act} (h : Steps X c q a q') : Transition X c q a q' := by
  cases a with
  | receiver => exact transition_of_receiver h
  | connected result => exact transition_of_connected h
  | received result => exact transition_of_received h
  | settler => exact transition_of_settler h
  | ack position =>
    simp only [Steps, step, acknowledge, Option.ite_none_right_eq_some] at h
    obtain ⟨hcancel, h⟩ := h
    cases h
    exact .ack hcancel
  | cancel => exact transition_of_cancel h
  | tick d =>
    cases h
    exact .tick

end Inversion

/-- What every transition keeps holds in every state a guarded run reaches. -/
theorem invariant_of_transition {X : Externs} {c : Config} {ok : Queue → Act → Prop} {now : Nanos}
    {q : Queue} {I : Queue → Prop} (hr : Reach (Steps X c) ok (start now) q)
    (h₀ : I (start now))
    (hstep : ∀ ⦃u a v⦄, I u → ok u a → Transition X c u a v → I v) : I q :=
  hr.invariant h₀ fun _ _ _ hu ho hs => hstep hu ho (transition_of_step hs)

theorem reach_run {X : Externs} {c : Config} {ok : Queue → Act → Bool} {q q' : Queue}
    {acts : List Act} (h : q.run X c ok acts = some q') :
    Reach (Steps X c) (fun u a => ok u a = true) q q' := by
  refine Reach.of_foldlM (fun u a v hs => ?_) h
  exact Option.ite_none_right_eq_some.mp hs

end Queue

end McpgSdk
