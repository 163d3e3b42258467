import McpgSdk.Inventory.Run

/-!
# The history of a run

`History` keeps beside the inventory what happened so far, in order: the changes emitted, the
acknowledgements that took effect, and the keys quietly forgotten. A step is a poll of any listing
at any time, or an acknowledgement of any position.

* `History.Inv`: the invariant that ties the inventory to its history, kept by every step
  (`inv_poll`, `inv_ack`) and so true in every reachable state (`inv_of_reach`);
* **`acknowledgements_exact`**: the acknowledgements that take effect have increasing sequence
  numbers and confirm the changes that were emitted under them, every other one changes nothing, and
  the confirmed listing is the baseline updated by exactly those and by what was forgotten.
-/

set_option autoImplicit false

namespace McpgSdk

open OrdMap

/-- What can happen in a run. -/
inductive Happening
  | emitted (e : Emitted)
  | acked (p : Pending)
  | forgot (key : String)

namespace Happening

/-- The change emitted, if one is. -/
def emit? : Happening → Option Emitted
  | emitted e => some e
  | _ => none

/-- The acknowledgement that took effect, if one did. -/
def ack? : Happening → Option Pending
  | acked p => some p
  | _ => none

/-- What the happening writes to the confirmed listing. -/
def move? : Happening → Option (String × Option String)
  | emitted _ => none
  | acked p => some (p.key, p.digest)
  | forgot key => some (key, none)

end Happening

/-- A step of a run. -/
inductive Act
  | poll (now : Nanos) (listing : List ObjectEntry)
  | ack (position : Json)

/-- An inventory with its history: the listing its confirmed one started from, and what happened
since. -/
structure History where
  inv : Inventory
  base : Digests
  trace : List Happening

namespace History

/-- The history of an inventory nothing happened to. -/
def start (inv : Inventory) : History := ⟨inv, inv.confirmed, []⟩

/-- The confirmed keys a poll forgets: under quiet removals, those the listing lacks. -/
def forgotten (inv : Inventory) (listing : List ObjectEntry) : List String :=
  if inv.quietRemovals ∧ inv.baseline ≠ .silent then
    inv.confirmed.keys.filter fun key => !(Inventory.currentOf listing).contains key
  else []

/-- One step. A silent start takes its first listing as the base. -/
def step (X : Externs) (h : History) : Act → History
  | .poll now listing =>
    { inv := (h.inv.pollCore X now listing).1
      base := if h.inv.baseline = .silent then
        Inventory.digestsOf X (Inventory.currentOf listing) else h.base
      trace := h.trace ++ ((forgotten h.inv listing).map .forgot ++
        (h.inv.pollCore X now listing).2.map .emitted) }
  | .ack position =>
    { h with
      inv := h.inv.acknowledged position
      trace := h.trace ++ ((h.inv.acknowledges position).map .acked).toList }

/-- The step relation. -/
def Steps (X : Externs) (h : History) (a : Act) (h' : History) : Prop := h' = h.step X a

/-- A run of several steps. -/
def run (X : Externs) (h : History) (acts : List Act) : History := acts.foldl (step X) h

theorem run_concat (X : Externs) (h : History) (acts : List Act) (a : Act) :
    h.run X (acts ++ [a]) = (h.run X acts).step X a := List.foldl_concat _ _ _ _

theorem reach_run_of {ok : History → Act → Prop} (X : Externs) (h : History) (acts : List Act)
    (hok : ∀ pre a post, acts = pre ++ a :: post → ok (h.run X pre) a) :
    Reach (Steps X) ok h (h.run X acts) := by
  have hstep : ∀ g a, Steps X g a (g.step X a) := fun _ _ => rfl
  exact Reach.of_foldl hstep h acts hok

theorem reach_run (X : Externs) (h : History) (acts : List Act) :
    Reach (Steps X) anyStep h (h.run X acts) := reach_run_of X h acts fun _ _ _ _ => trivial

/-- The changes emitted so far. -/
def emits (h : History) : List Emitted := h.trace.filterMap Happening.emit?

/-- The acknowledgements that took effect so far. -/
def acks (h : History) : List Pending := h.trace.filterMap Happening.ack?

/-- What was written to the confirmed listing so far. -/
def moves (h : History) : List (String × Option String) := h.trace.filterMap Happening.move?

/-- The window entry reports the change the event was emitted for. -/
def Reports (e : Emitted) (p : Pending) : Prop :=
  e.seq = p.seq ∧ e.change.entry.key = p.key ∧ e.change.digest = p.digest

/-- The inventory and its history belong together. -/
structure Inv (h : History) : Prop where
  wf : h.inv.WF
  untouched : h.inv.baseline = .silent → h.trace = []
  confirmed : h.inv.confirmed = patchAll h.base h.moves
  /-- Every change in the window was emitted. -/
  window : ∀ p ∈ h.inv.pending, ∃ e ∈ h.emits, Reports e p
  emitted : ∀ e ∈ h.emits, e.seq < h.inv.nextSeq
  distinct : (h.emits.map Emitted.seq).Pairwise (· < ·)
  acked : ∀ q ∈ h.acks, ∃ e ∈ h.emits, Reports e q
  increasing : (h.acks.map Pending.seq).Pairwise (· < ·)
  /-- No effective acknowledgement is ahead of a change still in the window. -/
  passed : ∀ q ∈ h.acks, ∀ p ∈ h.inv.pending, q.seq < p.seq

/-! ## The parts of the trace a step adds -/

section Poll

variable (X : Externs) (h : History) (now : Nanos) (listing : List ObjectEntry)

theorem emits_poll :
    (h.step X (.poll now listing)).emits = h.emits ++ (h.inv.pollCore X now listing).2 := by
  simp [emits, step, List.filterMap_map, Function.comp_def, Happening.emit?]

theorem acks_poll : (h.step X (.poll now listing)).acks = h.acks := by
  simp [acks, step, List.filterMap_map, Function.comp_def, Happening.ack?]

theorem moves_poll :
    (h.step X (.poll now listing)).moves =
      h.moves ++ (forgotten h.inv listing).map fun key => (key, none) := by
  simp [moves, step, List.filterMap_map, Function.comp_def, Happening.move?]

end Poll

section Ack

variable (X : Externs) (h : History) (position : Json)

theorem emits_ack : (h.step X (.ack position)).emits = h.emits := by
  cases hp : h.inv.acknowledges position <;> simp [emits, step, hp, Happening.emit?]

theorem acks_ack : (h.step X (.ack position)).acks =
    h.acks ++ (h.inv.acknowledges position).toList := by
  cases hp : h.inv.acknowledges position <;> simp [acks, step, hp, Happening.ack?]

theorem moves_ack : (h.step X (.ack position)).moves =
    h.moves ++ ((h.inv.acknowledges position).map fun p => (p.key, p.digest)).toList := by
  cases hp : h.inv.acknowledges position <;> simp [moves, step, hp, Happening.move?]

end Ack

/-! ## Every step keeps the invariant -/

/-- Under quiet removals no deletion is in flight, so a poll forgets every key the listing lacks. -/
theorem gone_of_quiet {inv : Inventory} (hw : inv.WF) (hq : inv.quietRemovals = true)
    (now : Nanos) (current : BTreeMap String ObjectEntry) :
    (inv.live now).gone current = inv.confirmed.keys.filter fun key => !current.contains key := by
  refine List.filter_congr fun k _ => ?_
  have hp : (inv.live now).pendingDigest k ≠ some none := fun hd => by
    obtain ⟨p, hp, -, hn⟩ := Inventory.pendingDigest_mem hd
    exact hw.quiet hq p (Inventory.mem_live hp) hn
  simp [hp]

theorem confirmed_poll {X : Externs} {inv : Inventory} (hw : inv.WF)
    (hb : inv.baseline ≠ .silent) (now : Nanos) (listing : List ObjectEntry) :
    (inv.pollCore X now listing).1.confirmed =
      patchAll inv.confirmed ((forgotten inv listing).map fun key => (key, none)) := by
  rw [(Inventory.pollCore_compare X now listing hb).2.2.1]
  dsimp only
  cases hq : inv.quietRemovals with
  | false =>
    simp only [Inventory.forget, Inventory.live, Inventory.expire, forgotten, hq,
      Bool.false_eq_true, if_false, false_and, List.map_nil, patchAll_nil]
  | true =>
    rw [forgotten, if_pos ⟨hq, hb⟩, ← gone_of_quiet hw hq now, ← foldl_erase]
    exact congrArg Inventory.confirmed (if_pos hq)

theorem confirmed_of_reported {X : Externs} {inv : Inventory} (hw : inv.WF)
    (hq : inv.quietRemovals = false) (hb : inv.baseline ≠ .silent) (now : Nanos)
    (listing : List ObjectEntry) :
    (inv.pollCore X now listing).1.confirmed = inv.confirmed := by
  rw [confirmed_poll hw hb, forgotten, if_neg (by simp [hq])]
  rfl

theorem inv_poll (X : Externs) {h : History} (hi : h.Inv) (now : Nanos)
    (listing : List ObjectEntry) : (h.step X (.poll now listing)).Inv := by
  by_cases hb : h.inv.baseline = .silent
  · -- the first listing of a silent start: nothing has happened, and nothing does
    have hc := Inventory.pollCore_silent X now listing hb
    have htrace : (h.step X (.poll now listing)).trace = [] := by
      simp [step, hc, forgotten, hb, hi.untouched hb]
    have hp : (h.inv.live now).pending = [] := by
      simp [Inventory.live, Inventory.expire, hi.wf.silent hb]
    have hpend : (h.step X (.poll now listing)).inv.pending = [] := by
      simp only [step, hc]
      exact hp
    refine ⟨Inventory.wf_pollCore hi.wf now listing, fun _ => htrace, ?_, ?_, ?_, ?_, ?_, ?_, ?_⟩
    · rw [moves, htrace, List.filterMap_nil, patchAll_nil]
      simp only [step, if_pos hb, hc]
      rfl
    all_goals simp [emits, acks, htrace, hpend]
  · obtain ⟨-, hseq, hst, -⟩ := Inventory.pollCore_compare X now listing hb
    refine ⟨Inventory.wf_pollCore hi.wf now listing, fun hs => ?_, ?_, ?_, ?_, ?_, ?_, ?_, ?_⟩
    · simp only [step] at hs
      rw [hst] at hs
      cases hs
    · rw [moves_poll, patchAll_append]
      simp only [step, if_neg hb]
      rw [confirmed_poll hi.wf hb, hi.confirmed]
    · intro p hp
      rw [emits_poll]
      rcases Inventory.mem_pending_pollCore.mp hp with hp | ⟨e, he, rfl⟩
      · obtain ⟨e, he, hr⟩ := hi.window p (Inventory.mem_live hp)
        exact ⟨e, List.mem_append_left _ he, hr⟩
      · exact ⟨e, List.mem_append_right _ he, rfl, rfl, rfl⟩
    · intro e he
      rw [emits_poll] at he
      rcases List.mem_append.mp he with he | he
      · refine lt_of_lt_of_le (hi.emitted e he) ?_
        simp only [step]
        rw [hst]
        exact Nat.le_add_right _ _
      · exact (Inventory.seq_of_emitted he).2
    · rw [emits_poll, List.map_append, List.pairwise_append]
      refine ⟨hi.distinct, ?_, ?_⟩
      · rw [hseq]
        exact List.pairwise_lt_range'
      · intro a ha b hb'
        obtain ⟨e, he, rfl⟩ := List.mem_map.mp ha
        obtain ⟨e', he', rfl⟩ := List.mem_map.mp hb'
        exact lt_of_lt_of_le (hi.emitted e he) (Inventory.seq_of_emitted he').1
    · intro q hq
      rw [acks_poll] at hq
      obtain ⟨e, he, hr⟩ := hi.acked q hq
      rw [emits_poll]
      exact ⟨e, List.mem_append_left _ he, hr⟩
    · rw [acks_poll]
      exact hi.increasing
    · intro q hq p hp
      rw [acks_poll] at hq
      rcases Inventory.mem_pending_pollCore.mp hp with hp | ⟨e, he, rfl⟩
      · exact hi.passed q hq p (Inventory.mem_live hp)
      · obtain ⟨e', he', hr, -, -⟩ := hi.acked q hq
        rw [← hr]
        exact lt_of_lt_of_le (hi.emitted e' he') (Inventory.seq_of_emitted he).1

theorem inv_ack (X : Externs) {h : History} (hi : h.Inv) (position : Json) :
    (h.step X (.ack position)).Inv := by
  cases ha : h.inv.acknowledges position with
  | none =>
    have hs : h.step X (.ack position) = h := by
      simp [step, ha, Inventory.acknowledged_of_none ha]
    rwa [hs]
  | some p =>
    have hp := (Inventory.acknowledges_eq_some ha).2
    have hpend : ∀ q ∈ (h.step X (.ack position)).inv.pending, q ∈ h.inv.pending ∧ p.seq < q.seq :=
      fun q hq => (Inventory.mem_pending_acknowledged ha).mp hq
    refine ⟨Inventory.wf_acknowledged hi.wf position, fun hs => ?_, ?_, ?_, ?_, ?_, ?_, ?_, ?_⟩
    · simp only [step, Inventory.acknowledged_of_some ha] at hs
      rw [hi.wf.silent hs] at hp
      cases hp
    · rw [moves_ack, patchAll_append, ← show h.base = (h.step X (.ack position)).base from rfl,
        ← hi.confirmed, ha]
      simp only [step, Inventory.acknowledged_of_some ha]
      rfl
    · intro q hq
      rw [emits_ack]
      exact hi.window q (hpend q hq).1
    · intro e he
      rw [emits_ack] at he
      simp only [step, Inventory.acknowledged_of_some ha]
      exact hi.emitted e he
    · rw [emits_ack]
      exact hi.distinct
    · intro q hq
      rw [acks_ack, ha] at hq
      rw [emits_ack]
      rcases List.mem_append.mp hq with hq | hq
      · exact hi.acked q hq
      · obtain rfl := List.mem_singleton.mp hq
        exact hi.window q hp
    · rw [acks_ack, ha, List.map_append, List.pairwise_append]
      refine ⟨hi.increasing, by simp, ?_⟩
      intro a ha' b hb
      obtain ⟨q, hq, rfl⟩ := List.mem_map.mp ha'
      simp only [Option.toList_some, List.map_cons, List.map_nil, List.mem_singleton] at hb
      rw [hb]
      exact hi.passed q hq p hp
    · intro q hq r hr
      rw [acks_ack, ha] at hq
      rcases List.mem_append.mp hq with hq | hq
      · exact hi.passed q hq r (hpend r hr).1
      · obtain rfl := List.mem_singleton.mp hq
        exact (hpend r hr).2

theorem inv_start {X : Externs} {inv : Inventory} (h : Inventory.Started X inv) :
    (start inv).Inv := by
  have hw := h.wf
  obtain ⟨options, resume, inv₀, hook, quiet, hnew, rfl⟩ := h
  obtain ⟨confirmed, baseline, gap, rfl, -, -⟩ := Inventory.new_eq_ok hnew
  exact ⟨hw, fun _ => rfl, rfl, by simp [start, Inventory.fresh], by simp [emits, start],
    by simp [emits, start], by simp [acks, start], by simp [acks, start], by simp [acks, start]⟩

/-- **The invariant holds in every reachable state**, whatever the guard. -/
theorem inv_of_reach {X : Externs} {inv₀ : Inventory} {ok : History → Act → Prop} {h : History}
    (h₀ : Inventory.Started X inv₀) (hr : Reach (Steps X) ok (start inv₀) h) : h.Inv := by
  refine hr.invariant (inv_start h₀) fun u a v hu _ hs => ?_
  obtain rfl : v = u.step X a := hs
  cases a with
  | poll now listing => exact inv_poll X hu now listing
  | ack position => exact inv_ack X hu position

theorem options_step (X : Externs) (h : History) (a : Act) :
    (h.step X a).inv.options = h.inv.options := by
  cases a with
  | poll now listing => exact (Inventory.pollCore_options X now listing h.inv).1
  | ack position => exact (Inventory.acknowledged_options h.inv position).1

theorem quiet_step (X : Externs) (h : History) (a : Act) :
    (h.step X a).inv.quietRemovals = h.inv.quietRemovals := by
  cases a with
  | poll now listing => exact (Inventory.pollCore_options X now listing h.inv).2
  | ack position => exact (Inventory.acknowledged_options h.inv position).2

/-- **Acknowledgements are monotone and exact.** In every reachable state the acknowledgements that
took effect have strictly increasing sequence numbers, each confirmed the change emitted under its
number, an acknowledgement of nothing pending leaves the whole inventory as it is, and the confirmed
listing is the base updated by exactly those acknowledgements, in order, and by what quiet removals
forgot. -/
theorem acknowledgements_exact {X : Externs} {inv₀ : Inventory} {h : History}
    (h₀ : Inventory.Started X inv₀) (hr : Reach (Steps X) anyStep (start inv₀) h) :
    (h.acks.map Pending.seq).Pairwise (· < ·) ∧
      (∀ q ∈ h.acks, ∃ e ∈ h.emits, Reports e q) ∧
      (∀ position, h.inv.acknowledges position = none → h.inv.acknowledged position = h.inv) ∧
      h.inv.confirmed = patchAll h.base h.moves := by
  have hi := inv_of_reach h₀ hr
  exact ⟨hi.increasing, hi.acked, fun _ => Inventory.acknowledged_of_none, hi.confirmed⟩

/-- Two changes in one poll; the host acknowledges the second, then the first, which was passed
over. -/
def passedOver : List Act :=
  [.poll 0 [], .poll 1 [{ key := "a" }, { key := "b" }],
    .ack (Cursor.toValue ⟨1, 1, none⟩), .ack (Cursor.toValue ⟨1, 0, none⟩)]

theorem acknowledgements_exact_passedOver :
    let h := (start Inventory.plainInventory).run plainExterns passedOver
    h.acks.map Pending.seq = [1] ∧ h.inv.confirmed.keys = ["b"] ∧
      h.inv.confirmed = patchAll h.base h.moves :=
  ⟨by decide +kernel, by decide +kernel,
    (acknowledgements_exact Inventory.plainInventory_started (reach_run _ _ _)).2.2.2⟩

end History

end McpgSdk
