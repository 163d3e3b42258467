import McpgSdk.Stream.Cancel

/-!
# What a stream's forwarder hands out

The forwarder of `Stream.Cancel` with the items it takes off the stream and the texts it hands to the
host's callback. The cluster forwarder passes over an item that does not encode, the HTTP one hands out
the empty text for it, and ends the body with a text of its own.

* `Event`, `Traced`, `Traced.next`: the same steps with items and texts; `reach_state`: a run of them is
  a run of the forwarder;
* `Faithful`: what was handed out, against what was taken;
* **`forwards_in_order`**: in every run the texts are the encodings of the items in order, without gap
  or repetition; the end text stands last, only when the stream ended, and nothing follows it or a
  cancel that was waited out; a forwarder that ends by itself has handed out everything.
-/

set_option autoImplicit false

namespace McpgSdk

namespace Stream

/-- A step of a forwarder of items. -/
inductive Event (T : Type)
  | ready (item : T)
  | pending
  | ended
  | encode
  | poll
  | callbackReturns
  | unwind
  | reap
  | cancel
  | receive
  | timeout
  | free
  deriving DecidableEq, Repr

/-- A forwarder with the items and the texts that went through it. -/
structure Traced (T : Type) where
  state : State
  /-- The items the stream answered with. -/
  taken : List T
  /-- The item that is not encoded yet. -/
  held : Option T
  /-- The items that were encoded. -/
  delivered : List T
  /-- The texts the callback was called with. -/
  payloads : List String
  /-- The stream answered that it is over. -/
  ended : Bool
  /-- A panic unwound the task. -/
  unwound : Bool
  deriving DecidableEq, Repr

/-- What is fixed for a forwarder: its kind, the encoding of items, and the text that ends a body. -/
structure Forwarder (T : Type) where
  kind : Kind
  encode : T → Option String
  endText : String

variable {T : Type}

/-- The texts handed out for an item. -/
def Forwarder.emit (f : Forwarder T) (item : T) : List String :=
  match f.encode item with
  | some text => [text]
  | none => if f.kind = .http then [""] else []

/-- The texts handed out when the stream is over. -/
def Forwarder.ending (f : Forwarder T) : List String := if f.kind = .http then [f.endText] else []

namespace Traced

/-- A stream that was just forwarded. -/
def start : Traced T := ⟨.start, [], none, [], [], false, false⟩

/-- The step of the forwarder that an event is. -/
def act (f : Forwarder T) (s : Traced T) : Event T → Option Act
  | .ready _ => some (.stream .ready)
  | .pending => some (.stream .pending)
  | .ended => some (.stream .ended)
  | .encode => s.held.map fun item => .encode (f.encode item).isSome
  | .poll => some .poll
  | .callbackReturns => some .callbackReturns
  | .unwind => some .unwind
  | .reap => some .reap
  | .cancel => some .cancel
  | .receive => some .receive
  | .timeout => some .timeout
  | .free => some .free

/-- What an event adds to the trace. -/
def record (f : Forwarder T) (s : Traced T) : Event T → Traced T
  | .ready item => { s with taken := s.taken ++ [item], held := some item }
  | .ended => { s with ended := true, payloads := s.payloads ++ f.ending }
  | .encode =>
    { s with
      held := none
      delivered := s.delivered ++ s.held.toList
      payloads := s.payloads ++ s.held.toList.flatMap f.emit }
  | .unwind => { s with unwound := true }
  | _ => s

/-- One step; none where it cannot be taken. -/
def next (f : Forwarder T) (s : Traced T) (e : Event T) : Option (Traced T) :=
  (s.act f e).bind fun a => (s.state.next f.kind a).map fun u => { s.record f e with state := u }

end Traced

/-- The step relation. -/
def Traces (f : Forwarder T) (s : Traced T) (e : Event T) (t : Traced T) : Prop := s.next f e = some t

variable {f : Forwarder T} {s t : Traced T} {e : Event T}

theorem traces_cases (h : Traces f s e t) : ∃ a u, s.act f e = some a ∧ Step f.kind s.state a u ∧
    t = { s.record f e with state := u } := by
  obtain ⟨a, ha, h⟩ := Option.bind_eq_some_iff.mp h
  obtain ⟨u, hu, rfl⟩ := Option.map_eq_some_iff.mp h
  exact ⟨a, u, ha, hu, rfl⟩

theorem reach_state {ok : Traced T → Event T → Prop} (h : Reach (Traces f) ok s t) :
    Reach (Step f.kind) anyStep s.state t.state := by
  induction h with
  | refl => exact .refl
  | tail _ _ hs ih =>
    obtain ⟨a, u, -, hu, rfl⟩ := traces_cases hs
    exact ih.tail trivial hu

/-! ## What every run keeps -/

/-- The task holds no item and has not come to its end. -/
def Phase.Loose (p : Phase) : Prop := p.Idle ∨ p = .polling ∨ p = .emitting

/-- What was handed out, against what was taken. -/
structure Faithful (f : Forwarder T) (s : Traced T) : Prop where
  taken : s.taken = s.delivered ++ s.held.toList
  payloads : s.payloads = s.delivered.flatMap f.emit ++ if s.ended then f.ending else []
  calls : s.state.calls = s.payloads.length
  unwound : s.unwound = true → s.state.phase = .gone
  /-- An item is in hand until it is encoded; a panic loses it. -/
  held : s.held ≠ none → s.state.phase = .holding ∨ s.unwound = true
  /-- Once the stream is over the task only ends. -/
  ended : s.ended = true → s.held = none ∧ (s.state.phase = .ending ∨ s.state.phase = .gone)
  ending : s.state.phase = .ending → s.ended = true
  gone : s.state.phase = .gone → s.ended = true ∨ s.state.aborted = true ∨ s.unwound = true

theorem faithful_start : Faithful f .start :=
  ⟨rfl, rfl, rfl, nofun, fun h => (h rfl).elim, nofun, nofun, nofun⟩

theorem Phase.Loose.ne {p : Phase} (h : p.Loose) : p ≠ .holding ∧ p ≠ .ending ∧ p ≠ .gone := by
  rcases h with (rfl | rfl) | rfl | rfl <;> exact ⟨nofun, nofun, nofun⟩

theorem Faithful.held_eq_none (hs : Faithful f s) (h : s.state.phase.Loose ∨ s.ended = true) :
    s.held = none := by
  rcases h with hloose | hended
  · by_cases hheld : s.held = none
    · exact hheld
    · rcases hs.held hheld with hphase | hunwound
      · exact absurd hphase hloose.ne.1
      · exact absurd (hs.unwound hunwound) hloose.ne.2.2
  · exact (hs.ended hended).1

theorem Faithful.not_over (hs : Faithful f s) (h : s.state.phase ≠ .ending)
    (h' : s.state.phase ≠ .gone) : s.ended = false ∧ s.unwound = false := by
  refine ⟨Bool.eq_false_iff.mpr fun hended => ?_, Bool.eq_false_iff.mpr fun hunwound => ?_⟩
  · exact (hs.ended hended).2.elim h h'
  · exact h' (hs.unwound hunwound)

/-- A step that hands out nothing: the task moves between phases without an item, stays where it is, or
ends when the stream is over or the task aborted. -/
theorem Faithful.moves (hs : Faithful f s) {u : State} (hcalls : u.calls = s.state.calls)
    (haborted : s.state.aborted = true → u.aborted = true)
    (hphase : u.phase = s.state.phase ∨ s.state.phase.Loose ∧ u.phase.Loose ∨
      s.held = none ∧ u.phase = .gone ∧ (s.ended = true ∨ u.aborted = true)) :
    Faithful f { s with state := u } := by
  rcases hphase with hsame | ⟨hloose, hloose'⟩ | ⟨hheld, hgone, hwhy⟩
  · exact ⟨hs.taken, hs.payloads, hcalls.trans hs.calls, fun h => hsame.trans (hs.unwound h),
      fun h => (hs.held h).imp_left hsame.trans,
      fun h => (hs.ended h).imp_right (Or.imp hsame.trans hsame.trans),
      fun h => hs.ending (hsame ▸ h),
      fun h => (hs.gone (hsame ▸ h)).imp_right (Or.imp_left haborted)⟩
  · have hheld := hs.held_eq_none (.inl hloose)
    obtain ⟨hended, hunwound⟩ := hs.not_over hloose.ne.2.1 hloose.ne.2.2
    refine ⟨hs.taken, hs.payloads, hcalls.trans hs.calls, fun h => ?_, fun h => absurd hheld h,
      fun h => ?_, fun h => absurd h hloose'.ne.2.1, fun h => absurd h hloose'.ne.2.2⟩
    · exact absurd hunwound (ne_false_of_eq_true h)
    · exact absurd hended (ne_false_of_eq_true h)
  · refine ⟨hs.taken, hs.payloads, hcalls.trans hs.calls, fun _ => hgone, fun h => absurd hheld h,
      fun _ => ⟨hheld, .inr hgone⟩, fun h => ?_, fun _ => hwhy.imp_right .inl⟩
    cases hgone.symm.trans h

theorem answered_ended (f : Forwarder T) (s : State) :
    ((s.answered f.kind .ended).phase = .ending ∨ (s.answered f.kind .ended).phase = .gone) ∧
      (s.answered f.kind .ended).calls = s.calls + f.ending.length := by
  unfold State.answered Forwarder.ending
  split_ifs
  · exact ⟨.inl rfl, rfl⟩
  · exact ⟨.inr rfl, rfl⟩

theorem encoded_item (f : Forwarder T) (s : State) (item : T) :
    (s.encoded f.kind (f.encode item).isSome).phase.Loose ∧
      (s.encoded f.kind (f.encode item).isSome).calls = s.calls + (f.emit item).length := by
  unfold State.encoded Forwarder.emit
  cases f.encode item with
  | some text => exact ⟨.inr (.inr rfl), rfl⟩
  | none =>
    by_cases hhttp : f.kind = .http
    · rw [if_pos (.inr hhttp), if_pos hhttp]
      exact ⟨.inr (.inr rfl), rfl⟩
    · rw [if_neg (by simp [hhttp]), if_neg hhttp]
      exact ⟨.inr (.inl rfl), rfl⟩

theorem reaped_eq (s : State) :
    s.reaped.phase = .gone ∧ s.reaped.calls = s.calls ∧ s.reaped.aborted = s.aborted := by
  unfold State.reaped
  split_ifs <;> exact ⟨rfl, rfl, rfl⟩

theorem faithful_step (hs : Faithful f s) (h : Traces f s e t) : Faithful f t := by
  obtain ⟨a, u, ha, hu, rfl⟩ := traces_cases h
  cases e with
  | ready item =>
    cases ha
    obtain ⟨hpolling, ⟨⟩⟩ := Option.ite_none_right_eq_some.mp hu
    have hloose : s.state.phase.Loose := .inr (.inl hpolling)
    have hheld := hs.held_eq_none (.inl hloose)
    obtain ⟨hended, hunwound⟩ := hs.not_over hloose.ne.2.1 hloose.ne.2.2
    refine ⟨?_, hs.payloads, hs.calls, fun h => absurd hunwound (ne_false_of_eq_true h),
      fun _ => .inl rfl, fun h => absurd hended (ne_false_of_eq_true h), nofun, nofun⟩
    show s.taken ++ [item] = s.delivered ++ [item]
    rw [hs.taken, hheld, Option.toList_none, List.append_nil]
  | pending =>
    cases ha
    obtain ⟨hpolling, ⟨⟩⟩ := Option.ite_none_right_eq_some.mp hu
    exact hs.moves rfl id (.inr (.inl ⟨.inr (.inl hpolling), .inl (.inr rfl)⟩))
  | ended =>
    cases ha
    obtain ⟨hpolling, ⟨⟩⟩ := Option.ite_none_right_eq_some.mp hu
    have hloose : s.state.phase.Loose := .inr (.inl hpolling)
    have hheld := hs.held_eq_none (.inl hloose)
    obtain ⟨hended, hunwound⟩ := hs.not_over hloose.ne.2.1 hloose.ne.2.2
    have hpayloads : s.payloads = s.delivered.flatMap f.emit := by
      rw [hs.payloads, hended]
      exact List.append_nil _
    obtain ⟨hphase, hcalls⟩ := answered_ended f s.state
    refine ⟨hs.taken, congrArg (· ++ f.ending) hpayloads, ?_,
      fun h => absurd hunwound (ne_false_of_eq_true h), fun h => absurd hheld h,
      fun _ => ⟨hheld, hphase⟩, fun _ => rfl, fun _ => .inl rfl⟩
    show _ = (s.payloads ++ f.ending).length
    rw [hcalls, hs.calls, List.length_append]
  | encode =>
    obtain ⟨item, hitem, rfl⟩ := Option.map_eq_some_iff.mp ha
    obtain ⟨hholding, ⟨⟩⟩ := Option.ite_none_right_eq_some.mp hu
    obtain ⟨hended, hunwound⟩ := hs.not_over (by rw [hholding]; nofun) (by rw [hholding]; nofun)
    obtain ⟨hloose, hcalls⟩ := encoded_item f s.state item
    have hrecord : s.record f .encode = { s with
        held := none
        delivered := s.delivered ++ [item]
        payloads := s.payloads ++ f.emit item } := by
      simp [Traced.record, hitem]
    rw [hrecord]
    refine ⟨?_, ?_, ?_, fun h => absurd hunwound (ne_false_of_eq_true h), fun h => absurd rfl h,
      fun h => absurd hended (ne_false_of_eq_true h), fun h => absurd h hloose.ne.2.1,
      fun h => absurd h hloose.ne.2.2⟩
    · show s.taken = _ ++ []
      rw [hs.taken, hitem, Option.toList_some, List.append_nil]
    · show s.payloads ++ f.emit item =
        (s.delivered ++ [item]).flatMap f.emit ++ if s.ended then _ else _
      rw [hs.payloads, hended]
      simp
    · show _ = (s.payloads ++ f.emit item).length
      rw [hcalls, hs.calls, List.length_append]
  | poll =>
    cases ha
    obtain ⟨⟨hidle, -⟩, ⟨⟩⟩ := Option.ite_none_right_eq_some.mp hu
    exact hs.moves rfl id (.inr (.inl ⟨.inl hidle, .inr (.inl rfl)⟩))
  | callbackReturns =>
    cases ha
    obtain ⟨hrunning, ⟨⟩⟩ := Option.ite_none_right_eq_some.mp hu
    rcases hrunning with hemitting | hending
    · have hafter : s.state.afterCall = { s.state with phase := .polling } :=
        if_neg (by rw [hemitting]; nofun)
      rw [hafter]
      exact hs.moves rfl id (.inr (.inl ⟨.inr (.inr hemitting), .inr (.inl rfl)⟩))
    · have hafter : s.state.afterCall = s.state.finish := if_pos hending
      have hended := hs.ending hending
      rw [hafter]
      exact hs.moves rfl id (.inr (.inr ⟨hs.held_eq_none (.inr hended), rfl, .inl hended⟩))
  | unwind =>
    cases ha
    obtain ⟨hin, ⟨⟩⟩ := Option.ite_none_right_eq_some.mp hu
    exact ⟨hs.taken, hs.payloads, hs.calls, fun _ => rfl, fun _ => .inr rfl,
      fun h => ⟨(hs.ended h).1, .inr rfl⟩, nofun, fun _ => .inr (.inr rfl)⟩
  | reap =>
    cases ha
    obtain ⟨⟨hidle, haborted⟩, ⟨⟩⟩ := Option.ite_none_right_eq_some.mp hu
    obtain ⟨hgone, hcalls, hkept⟩ := reaped_eq s.state
    have hheld := hs.held_eq_none (.inl (.inl hidle))
    exact hs.moves hcalls (fun _ => hkept.trans haborted)
      (.inr (.inr ⟨hheld, hgone, .inr (hkept.trans haborted)⟩))
  | cancel =>
    cases ha
    obtain ⟨-, ⟨⟩⟩ := Option.ite_none_right_eq_some.mp hu
    exact hs.moves rfl (fun _ => rfl) (.inl rfl)
  | receive =>
    cases ha
    obtain ⟨-, hu⟩ := Option.ite_none_right_eq_some.mp hu
    obtain ⟨wait, -, rfl⟩ := Option.map_eq_some_iff.mp hu
    exact hs.moves rfl id (.inl rfl)
  | timeout =>
    cases ha
    obtain ⟨-, ⟨⟩⟩ := Option.ite_none_right_eq_some.mp hu
    exact hs.moves rfl id (.inl rfl)
  | free =>
    cases ha
    obtain ⟨-, ⟨⟩⟩ := Option.ite_none_right_eq_some.mp hu
    exact hs.moves rfl id (.inl rfl)

theorem faithful_of_reach {ok : Traced T → Event T → Prop} (h : Reach (Traces f) ok .start s) :
    Faithful f s :=
  h.invariant faithful_start fun _ _ _ hu _ hs => faithful_step hu hs

/-! ## Nothing follows -/

/-- What the host and the stream saw is the same. -/
def SameTrace (s t : Traced T) : Prop :=
  t.payloads = s.payloads ∧ t.taken = s.taken ∧ t.ended = s.ended

/-- Only a task that asks the stream or has an item in hand takes or hands out anything. -/
theorem sameTrace_of_step (h : Traces f s e t) (hpolling : s.state.phase ≠ .polling)
    (hholding : s.state.phase ≠ .holding) : SameTrace s t := by
  obtain ⟨a, u, ha, hu, rfl⟩ := traces_cases h
  cases e with
  | ready item =>
    cases ha
    exact absurd (Option.ite_none_right_eq_some.mp hu).1 hpolling
  | ended =>
    cases ha
    exact absurd (Option.ite_none_right_eq_some.mp hu).1 hpolling
  | encode =>
    obtain ⟨item, -, rfl⟩ := Option.map_eq_some_iff.mp ha
    exact absurd (Option.ite_none_right_eq_some.mp hu).1 hholding
  | pending | poll | callbackReturns | unwind | reap | cancel | receive | timeout | free =>
    exact ⟨rfl, rfl, rfl⟩

/-- Nothing is taken or handed out from here on. -/
def Still (f : Forwarder T) (s : Traced T) : Prop :=
  ∀ t, Reach (Traces f) anyStep s t → t.payloads = s.payloads ∧ t.taken = s.taken

theorem still_of_invariant {I : Traced T → Prop} (hs : I s)
    (hstep : ∀ ⦃u e v⦄, I u → Traces f u e v → I v ∧ SameTrace u v) : Still f s := by
  intro t ht
  have hkept : I t ∧ t.payloads = s.payloads ∧ t.taken = s.taken := by
    refine ht.invariant (I := fun u => I u ∧ u.payloads = s.payloads ∧ u.taken = s.taken)
      ⟨hs, rfl, rfl⟩ fun u e v hu _ huv => ?_
    obtain ⟨hv, hpayloads, htaken, -⟩ := hstep hu.1 huv
    exact ⟨hv, hpayloads.trans hu.2.1, htaken.trans hu.2.2⟩
  exact hkept.2

theorem still_of_ended (hs : Faithful f s) (hended : s.ended = true) : Still f s := by
  refine still_of_invariant (I := fun u => Faithful f u ∧ u.ended = true) ⟨hs, hended⟩
    fun u e v hu huv => ?_
  have hphase := (hu.1.ended hu.2).2
  have hsame : SameTrace u v := by
    refine sameTrace_of_step huv ?_ ?_ <;>
      · rcases hphase with hphase | hphase <;>
          · rw [hphase]
            nofun
  exact ⟨⟨faithful_step hu.1 huv, hsame.2.2.trans hu.2⟩, hsame⟩

theorem still_of_cancelled (hi : Inv s.state) (hreturned : s.state.Returned)
    (hpoll : ¬ s.state.phase.InPoll) : Still f s := by
  refine still_of_invariant
    (I := fun u => Inv u.state ∧ u.state.Returned ∧ ¬ u.state.phase.InPoll)
    ⟨hi, hreturned, hpoll⟩ fun u e v hu huv => ?_
  obtain ⟨hui, hur, hup⟩ := hu
  have hsame := sameTrace_of_step huv (fun h => hup (.inl h)) fun h => hup (.inr (.inl h))
  obtain ⟨a, w, -, hw, rfl⟩ := traces_cases huv
  exact ⟨⟨inv_step hui hw, settled_step hui hur hup hw⟩, hsame⟩

/-- **A stream is handed out in order, and its end is not made up.** In every run of a forwarder and its
canceller, for any stream: the host got the encodings of the items in the order the stream gave them,
all but the one that may be in hand, followed by the text that ends an HTTP body exactly when the stream
ended. A task that ends without abort or panic has handed out all of it. Nothing is taken or handed out
after the end, nor after a cancel that returned with no poll running. -/
theorem forwards_in_order (f : Forwarder T) {s : Traced T} (h : Reach (Traces f) anyStep .start s) :
    s.taken = s.delivered ++ s.held.toList ∧
      s.payloads = s.delivered.flatMap f.emit ++ (if s.ended then f.ending else []) ∧
      (s.state.phase = .gone → s.state.aborted = false → s.unwound = false →
        s.ended = true ∧ s.delivered = s.taken) ∧
      (s.ended = true ∨ s.state.Returned ∧ ¬ s.state.phase.InPoll → Still f s) := by
  have hs := faithful_of_reach h
  refine ⟨hs.taken, hs.payloads, fun hgone haborted hunwound => ?_, ?_⟩
  · have hended : s.ended = true := by
      rcases hs.gone hgone with hended | habort | hpanic
      · exact hended
      · exact absurd haborted (ne_false_of_eq_true habort)
      · exact absurd hunwound (ne_false_of_eq_true hpanic)
    refine ⟨hended, ?_⟩
    rw [hs.taken, hs.held_eq_none (.inr hended), Option.toList_none, List.append_nil]
  · rintro (hended | ⟨hreturned, hpoll⟩)
    · exact still_of_ended hs hended
    · exact still_of_cancelled (inv_of_reach (reach_state h)) hreturned hpoll

/-- Two chunks and the end of the body, and a cancel after it. -/
def twoChunks : List (Event ℕ) :=
  [.poll, .ready 1, .encode, .callbackReturns, .pending, .poll, .ready 2, .encode, .callbackReturns,
    .ended, .callbackReturns, .cancel, .receive, .free]

/-- A forwarder of numbers, of which two does not encode. -/
def numbers : Forwarder ℕ := ⟨.http, fun n => if n = 2 then none else some "one", "end"⟩

theorem forwards_in_order_twoChunks :
    ∃ s, Reach (Traces numbers) anyStep .start s ∧ s.payloads = ["one", "", "end"] ∧
      s.state.Returned ∧ s.delivered = s.taken ∧ Still numbers s := by
  obtain ⟨s, hs, hpayloads, hreturned, hended, hdelivered⟩ := end_of_run
    (r := twoChunks.foldlM (Traced.next numbers) .start)
    (P := fun s => s.payloads = ["one", "", "end"] ∧ s.state.Returned ∧ s.ended = true ∧
      s.delivered = s.taken) (by decide +kernel)
  have hr : Reach (Traces numbers) anyStep .start s :=
    Reach.of_foldlM (g := Traced.next numbers) (fun _ _ _ hs => ⟨trivial, hs⟩) hs
  exact ⟨s, hr, hpayloads, hreturned, hdelivered, (forwards_in_order numbers hr).2.2.2 (.inl hended)⟩

end Stream

end McpgSdk
