import McpgSdk.Inventory.Converge
import McpgSdk.Inventory.EventId

/-!
# What an event reports

Every event reports how the listing differs at one key from the listing confirmed when the event is
emitted. Changes still in flight do not enter it: a change the host lost is reported again as it was,
and a key whose creation is in flight is reported created again when it changes.

* `confirmedAt`, `Reported`: every emitted change is a difference from the listing confirmed then;
* **`lost_change_reported_again`**: a change that left the window unacknowledged is reported again by
  the next poll that sees it, with its operation and its id;
* `InOrder`: the host acknowledges every event in the order of emission, and nothing expires;
* **`ops_follow_confirmed`**: the operations fit the confirmed listing, and what the host was told so
  far exactly when the changes in flight leave the key as present or absent as it is confirmed;
* `created_twice`: a key that changes while its creation is in flight.
-/

set_option autoImplicit false

namespace McpgSdk

open OrdMap Inventory

namespace History

/-- The listing confirmed after some happenings. -/
def confirmedAt (h : History) (pre : List Happening) : Digests :=
  patchAll h.base (pre.filterMap Happening.move?)

/-- Removals are reported, and every change was emitted as the difference of its key from the listing
confirmed then. -/
structure Reported (h : History) : Prop where
  inv : h.Inv
  reported : h.inv.quietRemovals = false
  kept : ∀ key, Happening.forgot key ∉ h.trace
  diffs : ∀ pre e post, h.trace = pre ++ Happening.emitted e :: post →
    (h.confirmedAt pre)[e.change.entry.key]? ≠ e.change.digest ∧
      e.change.op = opOf (h.confirmedAt pre)[e.change.entry.key]? e.change.digest

section

variable {X : Externs} {h : History}

theorem trace_poll (hq : h.inv.quietRemovals = false) (now : Nanos) (listing : List ObjectEntry) :
    (h.step X (.poll now listing)).trace =
      h.trace ++ (h.inv.pollCore X now listing).2.map Happening.emitted := by
  have hnone : forgotten h.inv listing = [] := if_neg (by simp [hq])
  simp only [step, hnone, List.map_nil, List.nil_append]

theorem base_step (hi : h.Inv) (htrace : h.trace ≠ []) (a : Act) : (h.step X a).base = h.base := by
  cases a with
  | poll now listing => exact if_neg fun hb => htrace (hi.untouched hb)
  | ack position => rfl

theorem emitted_only {es : List Emitted} {add post : List Happening} {x : Happening}
    (h : es.map Happening.emitted = add ++ x :: post) :
    ∃ front e back, es = front ++ e :: back ∧ add = front.map Happening.emitted ∧ x = .emitted e := by
  obtain ⟨front, rest, rfl, rfl, hrest⟩ := List.map_eq_append_iff.mp h
  obtain ⟨e, back, rfl, rfl, -⟩ := List.map_eq_cons_iff.mp hrest
  exact ⟨front, e, back, rfl, rfl, rfl⟩

theorem filterMap_emitted {α : Type} {f : Happening → Option α}
    (hf : ∀ e, f (.emitted e) = none) (es : List Emitted) :
    (es.map Happening.emitted).filterMap f = [] := by
  rw [List.filterMap_map]
  apply List.filterMap_eq_nil_iff.mpr
  intro e _
  exact hf e

theorem reported_poll (hr : h.Reported) (now : Nanos) (listing : List ObjectEntry) :
    (h.step X (.poll now listing)).Reported := by
  have htrace := trace_poll (X := X) hr.reported now listing
  refine ⟨inv_poll X hr.inv now listing, (quiet_step X h _).trans hr.reported, ?_, ?_⟩
  · intro key hmem
    rw [htrace] at hmem
    rcases List.mem_append.mp hmem with hmem | hmem
    · exact hr.kept key hmem
    · obtain ⟨e, -, he⟩ := List.mem_map.mp hmem
      cases he
  · intro pre e post hsplit
    rw [htrace] at hsplit
    unfold confirmedAt
    rcases append_split hsplit with ⟨more, hold⟩ | ⟨add, rfl, hnew⟩
    · rw [base_step hr.inv (by rw [hold]; simp)]
      exact hr.diffs pre e more hold
    · obtain ⟨front, e', back, hes, rfl, he⟩ := emitted_only hnew
      obtain rfl := Happening.emitted.inj he
      have hmem : e ∈ (h.inv.pollCore X now listing).2 := by
        rw [hes]
        exact List.mem_append_right _ List.mem_cons_self
      have hb := baseline_of_emitted hmem
      have hconf : patchAll h.base ((h.trace ++ front.map Happening.emitted).filterMap
          Happening.move?) = h.inv.confirmed := by
        rw [List.filterMap_append, filterMap_emitted (fun _ => rfl), List.append_nil]
        exact hr.inv.confirmed.symm
      have hbase : (h.step X (.poll now listing)).base = h.base := if_neg hb
      obtain ⟨hdigest, hne, -, hop⟩ := spec_of_emitted hr.inv.wf hmem
      rw [hbase, hconf, hdigest]
      exact ⟨hne, hop⟩

theorem reported_ack (hr : h.Reported) (position : Json) :
    (h.step X (.ack position)).Reported := by
  refine ⟨inv_ack X hr.inv position, (quiet_step X h _).trans hr.reported, ?_, ?_⟩
  · intro key hmem
    rcases List.mem_append.mp hmem with hmem | hmem
    · exact hr.kept key hmem
    · obtain ⟨p, -, hp⟩ := Option.map_eq_some_iff.mp (Option.mem_toList.mp hmem)
      cases hp
  · intro pre e post hsplit
    rcases append_split hsplit with ⟨more, hold⟩ | ⟨add, -, hnew⟩
    · exact hr.diffs pre e more hold
    · have hmem : Happening.emitted e ∈ ((h.inv.acknowledges position).map Happening.acked).toList := by
        rw [hnew]
        exact List.mem_append_right _ List.mem_cons_self
      obtain ⟨p, -, hp⟩ := Option.map_eq_some_iff.mp (Option.mem_toList.mp hmem)
      cases hp

theorem reported_of_reach {inv₀ : Inventory} {ok : History → Act → Prop} (h₀ : Started X inv₀)
    (hq : inv₀.quietRemovals = false) (hr : Reach (Steps X) ok (start inv₀) h) : h.Reported := by
  refine hr.invariant ⟨inv_start h₀, hq, by simp [start], by simp [start]⟩ fun u a v hu _ hs => ?_
  obtain rfl : v = u.step X a := hs
  cases a with
  | poll now listing => exact reported_poll hu now listing
  | ack position => exact reported_ack hu position

theorem confirmed_of_unacked (hr : h.Reported) {pre post : List Happening} {e : Emitted}
    (htrace : h.trace = pre ++ Happening.emitted e :: post) {k : String}
    (hunacked : ∀ p ∈ post.filterMap Happening.ack?, p.key ≠ k) :
    h.inv.confirmed[k]? = (h.confirmedAt pre)[k]? := by
  have hmoves : h.moves = pre.filterMap Happening.move? ++ post.filterMap Happening.move? := by
    rw [moves, htrace, List.filterMap_append]
    rfl
  have hpost : k ∉ (post.filterMap Happening.move?).map Prod.fst := by
    intro hk
    obtain ⟨w, hw, rfl⟩ := List.mem_map.mp hk
    obtain ⟨x, hx, hmove⟩ := List.mem_filterMap.mp hw
    cases x with
    | emitted e' => cases hmove
    | acked p =>
      obtain rfl := Option.some.inj hmove
      exact hunacked p (List.mem_filterMap.mpr ⟨_, hx, rfl⟩) rfl
    | forgot key =>
      apply hr.kept key
      rw [htrace]
      exact List.mem_append_right _ (List.mem_cons_of_mem _ hx)
  rw [hr.inv.confirmed, hmoves, patchAll_append]
  have hlook := congrFun (look_patchAll (h.confirmedAt pre) (post.filterMap Happening.move?)) k
  exact hlook.trans (applyAll_of_not_mem hpost _)

end

theorem mem_emits_of_split {h : History} {pre post : List Happening} {e : Emitted}
    (htrace : h.trace = pre ++ Happening.emitted e :: post) : e ∈ h.emits := by
  rw [emits, htrace]
  exact List.mem_filterMap.mpr ⟨.emitted e, List.mem_append_right _ List.mem_cons_self, rfl⟩

/-- **A lost change is reported again under its own id.** A change was emitted, and no acknowledgement
of its key has taken effect since. A poll whose listing shows the key at the change's target, whose
window has room for every difference, and in whose window the latest change of the key, if there is
any, leads elsewhere, reports the key exactly once, with the same operation, the same id, and a
sequence number larger than all before. -/
theorem lost_change_reported_again {X : Externs} {inv₀ : Inventory} {h : History} {e : Emitted}
    {pre post : List Happening} (h₀ : Started X inv₀) (hquiet : inv₀.quietRemovals = false)
    (hr : Reach (Steps X) anyStep (start inv₀) h) (htrace : h.trace = pre ++ Happening.emitted e :: post)
    (hunacked : ∀ p ∈ post.filterMap Happening.ack?, p.key ≠ e.change.entry.key) {now : Nanos}
    {listing : List ObjectEntry}
    (hlost : (h.inv.live now).pendingDigest e.change.entry.key ≠ some e.change.digest)
    (hlisted : (target X listing)[e.change.entry.key]? = e.change.digest)
    (hroom : ((h.inv.live now).changes X (currentOf listing)).length ≤ (h.inv.live now).room) :
    let again := (h.inv.pollCore X now listing).2
    (h.inv.poll X now listing).2 = again.map Emitted.event ∧
      (again.map fun e' => e'.change.entry.key).count e.change.entry.key = 1 ∧
      ∃ e' ∈ again, e'.change.entry.key = e.change.entry.key ∧ e'.change.digest = e.change.digest ∧
        e'.change.op = e.change.op ∧ Tells e'.change e'.event ∧
        e'.event.eventId = e.event.eventId ∧
        e'.event.upstreamCursor = some (Cursor.toValue ⟨cursorVersion, e'.seq, e'.snap⟩) ∧
        ∀ e'' ∈ h.emits, e''.seq < e'.seq := by
  intro again
  have hrep := reported_of_reach h₀ hquiet hr
  have hids := ids_of_reach h₀ hr
  have hw := hrep.inv.wf
  have hb : h.inv.baseline ≠ .silent := by
    intro hb
    rw [hrep.inv.untouched hb] at htrace
    simp at htrace
  have hconf := confirmed_of_unacked hrep htrace hunacked
  obtain ⟨hne, hop⟩ := hrep.diffs pre e post htrace
  rw [← hconf] at hne hop
  -- the key differs again, and there is room for all that does
  have hexists : ∃ e' ∈ again, e'.change.entry.key = e.change.entry.key := by
    apply exists_emitted_of_room hw hb hroom (fun _ => hrep.reported)
    · exact fun heq => hne (heq.trans hlisted)
    · exact fun heq => hlost (heq.trans (congrArg some hlisted))
  obtain ⟨e', he', hkey⟩ := hexists
  obtain ⟨hdigest, -, -, hop'⟩ := spec_of_emitted hw he'
  rw [hkey] at hdigest hop'
  have hdigest : e'.change.digest = e.change.digest := hdigest.trans hlisted
  have hop' : e'.change.op = e.change.op := by
    rw [hop', hop]
    exact congrArg _ hlisted
  have hold := mem_emits_of_split htrace
  have hid : h.inv.idParts e'.change = inv₀.idParts e.change := by
    rw [idParts_congr hids.options, idParts, idParts, hkey, hop', hdigest]
  obtain ⟨-, heventId, -, hcursor, htells⟩ := (pollCore_compare X now listing hb).2.2.2 e' he'
  refine ⟨events_of_poll hw hb now listing, ?_, e', he', hkey, hdigest, hop', htells, ?_, hcursor, ?_⟩
  · apply List.count_eq_one_of_mem (nodup_emitted X now listing hw hb)
    rw [← hkey]
    exact List.mem_map_of_mem (f := fun e' : Emitted => e'.change.entry.key) he'
  · rw [heventId, hids.ids e hold, hid]
  · intro e'' he''
    exact lt_of_lt_of_le (hrep.inv.emitted e'' he'') (seq_of_emitted he').1

theorem exists_emitted {trace : List Happening} (n : ℕ) {P : Emitted → List Happening → Prop}
    [∀ e post, Decidable (P e post)]
    (h : (match trace.drop n with
      | .emitted e :: post => decide (P e post)
      | _ => false) = true) :
    ∃ e post, trace = trace.take n ++ Happening.emitted e :: post ∧ P e post := by
  split at h
  · next e post hdrop => exact ⟨e, post, by rw [← hdrop, List.take_append_drop], of_decide_eq_true h⟩
  · cases h

/-- Two changes in one poll, of which the host acknowledges the second only. -/
def lostFirst : List Act :=
  [.poll 0 [], .poll 1 [{ key := "a" }, { key := "b" }], .ack (Cursor.toValue ⟨1, 1, none⟩)]

theorem lost_change_reported_again_lostFirst :
    let h := (start plainInventory).run plainExterns lostFirst
    let again := (h.inv.pollCore plainExterns 2 [{ key := "a" }, { key := "b" }]).2
    ∃ e ∈ h.emits, e.seq = 0 ∧ ∃ e' ∈ again, e'.change.entry.key = "a" ∧
      e'.change.op = e.change.op ∧ e'.event.eventId = e.event.eventId ∧ 1 < e'.seq := by
  intro h again
  have hfirst : ∃ e post, h.trace = h.trace.take 0 ++ Happening.emitted e :: post ∧ e.seq = 0 ∧
      e.change.entry.key = "a" ∧
      e.change.digest = (target plainExterns [{ key := "a" }, { key := "b" }])["a"]? ∧
      ∀ p ∈ post.filterMap Happening.ack?, p.key ≠ "a" := by
    apply exists_emitted 0
    decide +kernel
  obtain ⟨e, post, htrace, hseq, hkey, hdigest, hunacked⟩ := hfirst
  have hlost : (h.inv.live 2).pendingDigest e.change.entry.key ≠ some e.change.digest := by
    have hnone : (h.inv.live 2).pendingDigest "a" = none := by decide +kernel
    rw [hkey, hnone]
    exact nofun
  have hlisted : (target plainExterns [{ key := "a" }, { key := "b" }])[e.change.entry.key]? =
      e.change.digest := by rw [hkey, hdigest]
  obtain ⟨-, -, e', he', hkey', -, hop, -, hid, -, hlarger⟩ := lost_change_reported_again
    plainInventory_started rfl (reach_run _ _ _) htrace (by rwa [hkey]) hlost hlisted
    (by decide +kernel)
  have hemits := mem_emits_of_split htrace
  have hone : 1 ∈ h.emits.map Emitted.seq := by decide +kernel
  obtain ⟨e₁, he₁, hseq₁⟩ := List.mem_map.mp hone
  exact ⟨e, hemits, hseq, e', he', hkey'.trans hkey, hop, hid, hseq₁ ▸ hlarger e₁ he₁⟩

/-! ## The operations and the host's view -/

/-- The host acknowledges the events in the order of emission, each by its own position, as far behind
as it likes, and no change waits past its timeout. -/
def InOrder (h : History) : Act → Prop
  | .poll now _ => (h.inv.live now).pending = h.inv.pending
  | .ack position => h.acks.length < h.emits.length ∧
    positionSeq position = (h.emits[h.acks.length]?).map Emitted.seq

instance (h : History) (a : Act) : Decidable (InOrder h a) := by
  cases a <;> unfold InOrder <;> infer_instance

/-- What the window keeps of an event. -/
def faceOf (e : Emitted) : ℕ × String × Option String :=
  (e.seq, e.change.entry.key, e.change.digest)

/-- The same of a change in the window. -/
def pendingFace (p : Pending) : ℕ × String × Option String := (p.seq, p.key, p.digest)

/-- What was emitted was acknowledged, as far as the host has come, and the rest is in flight. -/
structure Followed (h : History) : Prop where
  rep : h.Reported
  order : h.acks.map pendingFace ++ h.inv.pending.map pendingFace = h.emits.map faceOf
  acked : ∀ pre e post, h.trace = pre ++ Happening.emitted e :: post →
    (pre.filterMap Happening.ack?).map pendingFace <+: (pre.filterMap Happening.emit?).map faceOf

section

variable {X : Externs} {h : History}

theorem followed_poll (hf : h.Followed) {now : Nanos} {listing : List ObjectEntry}
    (hok : InOrder h (.poll now listing)) : (h.step X (.poll now listing)).Followed := by
  refine ⟨reported_poll hf.rep now listing, ?_, ?_⟩
  · rw [acks_poll, emits_poll, List.map_append, ← hf.order, List.append_assoc]
    by_cases hb : h.inv.baseline = .silent
    · have hstep : (h.step X (.poll now listing)).inv.pending = h.inv.pending := by
        simp only [step, pollCore_silent X now listing hb]
        exact hok
      rw [hstep, pollCore_silent X now listing hb, List.map_nil, List.append_nil]
    · have hstep : (h.step X (.poll now listing)).inv.pending =
          h.inv.pending ++ (h.inv.pollCore X now listing).2.map (entryOf now) := by
        simp only [step]
        rw [(pollCore_compare X now listing hb).2.2.1]
        exact congrArg (· ++ _) hok
      rw [hstep, List.map_append, List.map_map]
      rfl
  · intro pre e post hsplit
    rw [trace_poll hf.rep.reported] at hsplit
    rcases append_split hsplit with ⟨more, hold⟩ | ⟨add, rfl, hnew⟩
    · exact hf.acked pre e more hold
    · obtain ⟨front, e', back, hes, rfl, -⟩ := emitted_only hnew
      rw [List.filterMap_append, List.filterMap_append, filterMap_emitted (fun _ => rfl),
        List.append_nil, List.map_append]
      have horder : h.acks.map pendingFace <+: h.emits.map faceOf := ⟨_, hf.order⟩
      exact horder.trans (List.prefix_append _ _)

theorem followed_ack (hf : h.Followed) {position : Json} (hok : InOrder h (.ack position)) :
    (h.step X (.ack position)).Followed := by
  obtain ⟨hlt, hseq⟩ := hok
  -- the next event to acknowledge is the oldest in the window
  obtain ⟨p, rest, hpending⟩ : ∃ p rest, h.inv.pending = p :: rest := by
    apply List.exists_cons_of_ne_nil
    intro hnil
    have hlen := congrArg List.length hf.order
    rw [hnil, List.length_append, List.length_map, List.length_map, List.length_map,
      List.length_nil] at hlen
    omega
  have hface : (h.emits[h.acks.length]?).map faceOf = some (pendingFace p) := by
    rw [← List.getElem?_map, ← hf.order, List.getElem?_append_right (by simp), hpending]
    simp
  have hhead : positionSeq position = some p.seq := by
    obtain ⟨e, he, heq⟩ := Option.map_eq_some_iff.mp hface
    rw [hseq, he]
    exact congrArg some (congrArg Prod.fst heq)
  have hacks := acknowledges_head hpending hhead
  have hrest : (h.inv.acknowledged position).pending = rest := by
    have hsorted := hf.rep.inv.wf.sorted
    rw [hpending, List.map_cons, List.pairwise_cons] at hsorted
    rw [acknowledged_of_some hacks]
    dsimp only
    rw [hpending, List.filter_cons_of_neg (by simp), List.filter_eq_self]
    intro q hq
    exact decide_eq_true (hsorted.1 q.seq (List.mem_map_of_mem hq))
  refine ⟨reported_ack hf.rep position, ?_, ?_⟩
  · rw [acks_ack, emits_ack, hacks, ← hf.order, hpending]
    simp [step, hrest]
  · intro pre e post hsplit
    rcases append_split hsplit with ⟨more, hold⟩ | ⟨add, -, hnew⟩
    · exact hf.acked pre e more hold
    · rw [hacks] at hnew
      have hmem : Happening.emitted e ∈ [Happening.acked p] := by
        change [Happening.acked p] = _ at hnew
        rw [hnew]
        exact List.mem_append_right _ List.mem_cons_self
      cases List.mem_singleton.mp hmem

theorem followed_of_reach {inv₀ : Inventory} (h₀ : Started X inv₀)
    (hq : inv₀.quietRemovals = false) (hr : Reach (Steps X) InOrder (start inv₀) h) : h.Followed := by
  have hstart : Reach (Steps X) anyStep (start inv₀) (start inv₀) := .refl
  refine hr.invariant ⟨reported_of_reach h₀ hq hstart, ?_, by simp [start]⟩ fun u a v hu hok hs => ?_
  · simp [start, acks, emits, h₀.pending]
  · obtain rfl : v = u.step X a := hs
    cases a with
    | poll now listing => exact followed_poll hu hok
    | ack position => exact followed_ack hu hok

/-- What was confirmed is what the host had acknowledged of the events before. -/
theorem confirmedAt_of_followed (hf : h.Followed) {pre post : List Happening} {e : Emitted}
    (htrace : h.trace = pre ++ Happening.emitted e :: post) :
    h.confirmedAt pre = patchAll h.base (((pre.filterMap Happening.emit?).take
      (pre.filterMap Happening.ack?).length).map writeOf) := by
  have hmoves : pre.filterMap Happening.move? =
      (pre.filterMap Happening.ack?).map fun p => (p.key, p.digest) := by
    rw [List.map_filterMap]
    apply List.filterMap_congr
    intro x hx
    cases x with
    | emitted e' => rfl
    | acked p => rfl
    | forgot key =>
      exfalso
      apply hf.rep.kept key
      rw [htrace]
      exact List.mem_append_left _ hx
  have hfaces := List.prefix_iff_eq_take.mp (hf.acked pre e post htrace)
  have hwrites := congrArg (List.map Prod.snd) hfaces
  rw [← List.map_take, List.length_map, List.map_map, List.map_map] at hwrites
  unfold confirmedAt
  rw [hmoves]
  exact congrArg _ hwrites

end

/-- The operation of a change fits a listing: what is created is not there, and what is modified or
deleted is. -/
def Fits (view : Digests) (c : Change) : Prop := c.op = .created ↔ view[c.entry.key]? = none

theorem opOf_created {c t : Option String} (h : c ≠ t) : opOf c t = .created ↔ c = none := by
  cases c <;> cases t <;> simp_all [opOf]

/-- **The operations follow the confirmed listing.** The host acknowledges every event in order, any
number of polls behind. Every event fits the listing confirmed when it is emitted, which is the base
with the events acknowledged by then. It fits the base with all events before it if and only if the
events in between leave its key as present or absent as it is confirmed; so it does when none of them
is about its key. -/
theorem ops_follow_confirmed {X : Externs} {inv₀ : Inventory} {h : History} {e : Emitted}
    {pre post : List Happening} (h₀ : Started X inv₀) (hquiet : inv₀.quietRemovals = false)
    (hr : Reach (Steps X) InOrder (start inv₀) h)
    (htrace : h.trace = pre ++ Happening.emitted e :: post) :
    let told := pre.filterMap Happening.emit?
    let n := (pre.filterMap Happening.ack?).length
    let view := patchAll h.base (told.map writeOf)
    let confirmed := patchAll h.base ((told.take n).map writeOf)
    Fits confirmed e.change ∧
      (Fits view e.change ↔
        (view[e.change.entry.key]? = none ↔ confirmed[e.change.entry.key]? = none)) ∧
      ((∀ e' ∈ told.drop n, e'.change.entry.key ≠ e.change.entry.key) → Fits view e.change) := by
  intro told n view confirmed
  have hf := followed_of_reach h₀ hquiet hr
  have hconf : h.confirmedAt pre = confirmed := confirmedAt_of_followed hf htrace
  obtain ⟨hne, hop⟩ := hf.rep.diffs pre e post htrace
  rw [hconf] at hne hop
  have hfits : Fits confirmed e.change := by
    unfold Fits
    rw [hop]
    exact opOf_created hne
  have hview : Fits view e.change ↔
      (view[e.change.entry.key]? = none ↔ confirmed[e.change.entry.key]? = none) := by
    unfold Fits at hfits ⊢
    rw [hfits]
    exact ⟨Iff.symm, Iff.symm⟩
  refine ⟨hfits, hview, fun hnone => hview.mpr ?_⟩
  have hsplit : view = patchAll confirmed ((told.drop n).map writeOf) := by
    rw [← patchAll_append, ← List.map_append, List.take_append_drop]
  have hkey : e.change.entry.key ∉ ((told.drop n).map writeOf).map Prod.fst := by
    rw [fst_writeOf]
    intro hk
    obtain ⟨e', he', hkey⟩ := List.mem_map.mp hk
    exact hnone e' he' hkey
  have hsame : view[e.change.entry.key]? = confirmed[e.change.entry.key]? := by
    rw [hsplit]
    exact (congrFun (look_patchAll confirmed _) _).trans (applyAll_of_not_mem hkey _)
  rw [hsame]

/-- A run all of whose steps are in order. -/
def runInOrder (X : Externs) (h : History) (acts : List Act) : Option History :=
  acts.foldlM (fun h a => if InOrder h a then some (h.step X a) else none) h

theorem reach_runInOrder {X : Externs} {h h' : History} {acts : List Act}
    (hrun : h.runInOrder X acts = some h') : Reach (Steps X) InOrder h h' := by
  refine Reach.of_foldlM (fun s a t hst => ?_) hrun
  split_ifs at hst with hok
  exact ⟨hok, (Option.some.inj hst).symm⟩

/-- A key created and modified, each change acknowledged before the next poll. -/
def ackedBetween : List Act :=
  [.poll 0 [], .poll 1 [{ key := "a" }], .ack (Cursor.toValue ⟨1, 0, none⟩),
    .poll 2 [{ key := "a", size := some 1 }]]

theorem ops_follow_confirmed_ackedBetween :
    ∃ h, (start plainInventory).runInOrder plainExterns ackedBetween = some h ∧
      ∃ e post, h.trace = h.trace.take 2 ++ Happening.emitted e :: post ∧ e.change.op = .modified ∧
        Fits (patchAll h.base (((h.trace.take 2).filterMap Happening.emit?).map writeOf)) e.change := by
  obtain ⟨h, hrun, hsecond, hlength⟩ := end_of_run
    (r := (start plainInventory).runInOrder plainExterns ackedBetween)
    (P := fun h => (match h.trace.drop 2 with
      | .emitted e :: _ => decide (e.change.op = .modified)
      | _ => false) = true ∧ ((h.trace.take 2).filterMap Happening.emit?).length =
        ((h.trace.take 2).filterMap Happening.ack?).length) (by decide +kernel)
  obtain ⟨e, post, htrace, hop⟩ := exists_emitted 2 (P := fun e _ => e.change.op = .modified) hsecond
  have hfits := ops_follow_confirmed plainInventory_started rfl (reach_runInOrder hrun) htrace
  refine ⟨h, hrun, e, post, htrace, hop, hfits.2.2 ?_⟩
  rw [← hlength, List.drop_length]
  simp

/-- A key that changes while its creation is in flight; both changes are acknowledged afterwards. -/
def ackedLate : List Act :=
  [.poll 0 [], .poll 1 [{ key := "a" }], .poll 2 [{ key := "a", size := some 1 }],
    .ack (Cursor.toValue ⟨1, 0, none⟩), .ack (Cursor.toValue ⟨1, 1, none⟩)]

/-- **A key is created twice**: the second event says created although the first one, not acknowledged
yet, said so before. -/
theorem created_twice :
    ¬ ∀ (X : Externs) (inv₀ : Inventory) (h : History) (e : Emitted) (pre post : List Happening),
      Started X inv₀ → inv₀.quietRemovals = false → Reach (Steps X) InOrder (start inv₀) h →
      h.acks.length = h.emits.length → h.trace = pre ++ Happening.emitted e :: post →
      Fits (patchAll h.base ((pre.filterMap Happening.emit?).map writeOf)) e.change := by
  intro hclaim
  obtain ⟨h, hrun, hacks, hsecond⟩ := end_of_run
    (r := (start plainInventory).runInOrder plainExterns ackedLate)
    (P := fun h => h.acks.length = h.emits.length ∧ (match h.trace.drop 1 with
      | .emitted e :: _ => decide (e.change.op = .created ∧ (patchAll h.base (((h.trace.take 1).filterMap
          Happening.emit?).map writeOf))[e.change.entry.key]? ≠ none)
      | _ => false) = true) (by decide +kernel)
  obtain ⟨e, post, htrace, hop, hpresent⟩ := exists_emitted 1
    (P := fun e _ => e.change.op = .created ∧ (patchAll h.base (((h.trace.take 1).filterMap
      Happening.emit?).map writeOf))[e.change.entry.key]? ≠ none) hsecond
  have hfits := hclaim _ _ h e _ post plainInventory_started rfl (reach_runInOrder hrun) hacks htrace
  exact hpresent (hfits.mp hop)

end History

end McpgSdk
