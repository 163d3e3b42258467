import McpgSdk.Inventory.Watch

/-!
# Resource watches

A watch of a resource that is no event source only says that something changed: it emits one bare
`{}` for a listing with changes and acknowledges them itself, in the same iteration. So it runs the
same engine without anything ever staying in flight.

* `Inventory.differing`: the keys a listing reports, removed ones only when removals are reported;
* `Inventory.AtRest`: nothing is in flight;
* `disagree_polled`: what a self-acknowledged poll leaves of the differences;
* **`resource_watch`**: in every reachable state nothing is pending; an iteration emits one `{}`
  exactly when its listing differs, and confirms the listing if the window holds the differences.
-/

set_option autoImplicit false

namespace McpgSdk

open OrdMap

namespace Inventory

/-- The keys a listing reports: those it differs on, not counting what only left it when removals are
quiet. -/
def differing (X : Externs) (inv : Inventory) (listing : List ObjectEntry) : Finset String :=
  (disagree inv.confirmed (target X listing)).filter fun k =>
    ¬ (inv.quietRemovals = true ∧ (target X listing)[k]? = none)

/-- Nothing is in flight. -/
structure AtRest (inv : Inventory) : Prop where
  wf : inv.WF
  pending : inv.pending = []

section Rest

variable {X : Externs} {inv : Inventory}

theorem mem_differing {listing : List ObjectEntry} {k : String} :
    k ∈ inv.differing X listing ↔ inv.confirmed[k]? ≠ (target X listing)[k]? ∧
      ((target X listing)[k]? = none → inv.quietRemovals = false) := by
  rw [differing, Finset.mem_filter, mem_disagree]
  refine and_congr_right fun _ => ?_
  cases inv.quietRemovals <;> simp

theorem toFinset_changes (h : inv.AtRest) (now : Nanos) (listing : List ObjectEntry) :
    (((inv.live now).changes X (currentOf listing)).map fun c => c.entry.key).toFinset =
      inv.differing X listing := by
  have hs : (inv.live now).SeenKeyed := h.wf.live_seen now
  ext k
  rw [List.mem_toFinset, mem_differing, List.mem_map]
  constructor
  · rintro ⟨c, hc, rfl⟩
    have hspec := mem_changes hs hc
    refine ⟨hspec.2.1, fun hnone => ?_⟩
    by_contra hquiet
    have hq : (inv.live now).quietRemovals = true := Bool.not_eq_false _ |>.mp hquiet
    exact digest_of_quiet hq hc (hspec.1.trans hnone)
  · rintro ⟨hne, hquiet⟩
    refine exists_change hs hquiet hne ?_
    rw [pendingDigest_nil (live_pending_nil h.pending now)]
    exact fun hcontra => by cases hcontra

theorem length_changes_rest (h : inv.AtRest) (now : Nanos) (listing : List ObjectEntry) :
    ((inv.live now).changes X (currentOf listing)).length = (inv.differing X listing).card := by
  rw [← toFinset_changes h now listing,
    List.toFinset_card_of_nodup (nodup_changes (h.wf.live_seen now) listing), List.length_map]

theorem room_rest (h : inv.AtRest) (now : Nanos) : (inv.live now).room = inv.options.maxInFlight := by
  unfold room
  rw [live_pending_nil h.pending now]
  rfl

theorem length_emitted (h : inv.AtRest) (hb : inv.baseline ≠ .silent) (now : Nanos)
    (listing : List ObjectEntry) :
    (inv.pollCore X now listing).2.length =
      min inv.options.maxInFlight (inv.differing X listing).card := by
  have hchanges := (pollCore_compare X now listing hb).1
  rw [← List.length_map (f := Emitted.change), hchanges, taken, List.length_take,
    length_changes_rest h now listing, room_rest h now]

theorem mem_gone_rest (h : inv.AtRest) {now : Nanos} {listing : List ObjectEntry} {k : String} :
    k ∈ (inv.live now).gone (currentOf listing) ↔
      inv.confirmed[k]? ≠ none ∧ (target X listing)[k]? = none := by
  rw [mem_gone, pendingDigest_nil (live_pending_nil h.pending now), target, getElem?_digestsOf,
    Option.map_eq_none_iff]
  simp [live, expire]

theorem mem_forgotten (h : inv.AtRest) (hb : inv.baseline ≠ .silent) (listing : List ObjectEntry)
    {k : String} :
    k ∈ History.forgotten inv listing ↔ inv.quietRemovals = true ∧ inv.confirmed[k]? ≠ none ∧
      (target X listing)[k]? = none := by
  unfold History.forgotten
  by_cases hquiet : inv.quietRemovals = true
  · rw [if_pos ⟨hquiet, hb⟩, ← History.gone_of_quiet h.wf hquiet 0, mem_gone_rest (X := X) h]
    simp [hquiet]
  · rw [if_neg fun hc => hquiet hc.1]
    simp [hquiet]

/-- What quiet removals forget is what only left the listing, so the rest of the differences is what
is reported. -/
theorem disagree_pollCore (h : inv.AtRest) (hb : inv.baseline ≠ .silent) (now : Nanos)
    (listing : List ObjectEntry) :
    disagree (inv.pollCore X now listing).1.confirmed (target X listing) =
      inv.differing X listing := by
  rw [History.confirmed_poll h.wf hb now listing, ← foldl_erase]
  ext k
  rw [mem_disagree, mem_differing, getElem?_foldl_erase]
  have hiff := mem_forgotten (X := X) (k := k) h hb listing
  by_cases hforgot : k ∈ History.forgotten inv listing
  · obtain ⟨hquiet, -, hnone⟩ := hiff.mp hforgot
    rw [if_pos hforgot, hnone]
    exact iff_of_false (fun hne => hne rfl) fun hd => by simp [hquiet] at hd
  · rw [if_neg hforgot]
    refine ⟨fun hne => ⟨hne, fun hnone => ?_⟩, fun hd => hd.1⟩
    by_contra hquiet
    rw [hnone] at hne
    exact hforgot (hiff.mpr ⟨Bool.not_eq_false _ |>.mp hquiet, hne, hnone⟩)

/-- Acknowledging a poll's own events leaves nothing in flight, and of the differences what the
window did not hold. -/
theorem acknowledgeAll_pollCore (h : inv.AtRest) (hb : inv.baseline ≠ .silent) (now : Nanos)
    (listing : List ObjectEntry) :
    let es := (inv.pollCore X now listing).2
    let r := (inv.pollCore X now listing).1.acknowledgeAll (es.map Emitted.event)
    r.pending = [] ∧ r.options = inv.options ∧
      disagree r.confirmed (target X listing) =
        inv.differing X listing \ (es.map fun e => e.change.entry.key).toFinset := by
  intro es r
  obtain ⟨-, hseq, hst, hev⟩ := pollCore_compare X now listing hb
  have hpend : (inv.pollCore X now listing).1.pending = es.map (entryOf now) := by
    rw [hst]
    dsimp only
    rw [live_pending_nil h.pending, List.nil_append]
  have hsorted : (es.map Emitted.seq).Pairwise (· < ·) := by
    rw [hseq]
    exact List.pairwise_lt_range'
  obtain ⟨hempty, hconf, -, hopts, -⟩ :=
    acknowledgeAll_window hpend hsorted fun e he => (hev e he).2.2.2.1
  refine ⟨hempty, hopts.trans (pollCore_options X now listing inv).1, ?_⟩
  have hkeys : (es.map writeOf).map Prod.fst = es.map fun e => e.change.entry.key := fst_writeOf es
  have hnodup : (es.map fun e => e.change.entry.key).Nodup := nodup_emitted X now listing h.wf hb
  show disagree r.confirmed (target X listing) = _
  rw [hconf, disagree_patchAll (by rwa [hkeys]), hkeys, disagree_pollCore h hb now listing]
  intro p hp
  obtain ⟨e, he, rfl⟩ := List.mem_map.mp hp
  exact (spec_of_emitted h.wf he).1

theorem keys_of_fits (h : inv.AtRest) (hb : inv.baseline ≠ .silent) (now : Nanos)
    {listing : List ObjectEntry} (hfits : (inv.differing X listing).card ≤ inv.options.maxInFlight) :
    ((inv.pollCore X now listing).2.map fun e => e.change.entry.key).toFinset =
      inv.differing X listing := by
  have hchanges := (pollCore_compare X now listing hb).1
  have hall : inv.taken X now listing = (inv.live now).changes X (currentOf listing) := by
    refine List.take_of_length_le ?_
    rw [room_rest h now, length_changes_rest h now listing]
    exact hfits
  rw [← toFinset_changes h now listing, ← hall, ← hchanges, List.map_map]
  rfl

end Rest

end Inventory

namespace Watch

open Inventory

/-- A watch of a resource as it is spawned. -/
def SpawnedResource (X : Externs) (w : Watch) : Prop :=
  ∃ options resume hooks now, spawnInventoryWatchHooked X false options resume hooks now = .ok w

section Resource

variable {X : Externs} {w w' : Watch}

theorem one_le_maxInFlight {o : InventoryOptions} (h : o.validate = .ok ()) : 1 ≤ o.maxInFlight := by
  unfold InventoryOptions.validate at h
  split_ifs at h with h1 h2 h3
  exact h3.1

/-- What holds of a resource watch between two statements: nothing is in flight, and the window holds
something. -/
structure Resting (w : Watch) : Prop where
  source : w.eventSource = false
  rest : w.inv.AtRest
  window : 1 ≤ w.inv.options.maxInFlight

theorem SpawnedResource.resting (h : SpawnedResource X w) : w.Resting := by
  obtain ⟨options, resume, hooks, now, h⟩ := h
  obtain ⟨hvalid, hstarted, hopts, hsource⟩ := spawn_eq_ok h
  refine ⟨hsource, ⟨hstarted.wf, ?_⟩, ?_⟩
  · obtain ⟨_, _, inv₀, _, _, hnew, heq⟩ := hstarted
    obtain ⟨_, _, _, rfl, -, -⟩ := new_eq_ok hnew
    rw [heq]
    rfl
  · rw [hopts]
    exact one_le_maxInFlight hvalid

theorem emitted_next (h : w.next X = some w') : w'.emitted = w.emitted := by
  unfold next at h
  split at h
  all_goals
    first | (split_ifs at h <;> cases h) | cases h
    all_goals rfl

theorem acknowledged_rest {inv : Inventory} (h : inv.pending = []) (position : Json) :
    inv.acknowledged position = inv := by
  refine acknowledged_of_none ?_
  unfold acknowledges
  rw [h]
  cases positionSeq position <;> rfl

/-- What one listing does to a resting watch. -/
structure Iterated (X : Externs) (w : Watch) (listing : List ObjectEntry) (w' : Watch) : Prop where
  rest : w'.inv.AtRest
  options : w'.inv.options = w.inv.options
  emitted : w'.emitted = w.emitted ++
    if w.inv.baseline ≠ .silent ∧ (w.inv.differing X listing).Nonempty then ["\x7b\x7d"] else []
  confirmed : (w.inv.differing X listing).card ≤ w.inv.options.maxInFlight →
    w'.inv.confirmed = target X listing

theorem polled_silent (hw : w.Resting) (hb : w.inv.baseline = .silent)
    (listing : List ObjectEntry) : Iterated X w listing (w.polled X listing) := by
  have hpoll := pollCore_silent X w.clock listing hb
  -- a gap, if there is one, is no change
  have hnone : ((w.inv.poll X w.clock listing).2.any fun e => e.eventType.isSome) = false := by
    unfold poll
    rw [hpoll]
    cases w.inv.gap <;> rfl
  have hpolled : w.polled X listing = { w with inv := (w.inv.pollCore X w.clock listing).1 } := by
    simp only [polled, hw.source, Bool.false_eq_true, if_false, hnone]
    rfl
  rw [hpolled]
  refine ⟨⟨wf_pollCore hw.rest.wf w.clock listing, ?_⟩, ?_, ?_, fun _ => ?_⟩
  · rw [hpoll]
    exact live_pending_nil hw.rest.pending w.clock
  · rw [hpoll]
    rfl
  · rw [if_neg fun hc => hc.1 hb, List.append_nil]
  · rw [hpoll]
    rfl

theorem polled_compare (hw : w.Resting) (hb : w.inv.baseline ≠ .silent)
    (listing : List ObjectEntry) : Iterated X w listing (w.polled X listing) := by
  set es := (w.inv.pollCore X w.clock listing).2 with hes
  have hgap : w.inv.gap = false := by
    by_contra hg
    exact hb (hw.rest.wf.gap (Bool.not_eq_false _ |>.mp hg))
  have hevents : (w.inv.poll X w.clock listing).2 = es.map Emitted.event := by
    unfold poll
    rw [hgap]
    rfl
  have hlen : es.length = min w.inv.options.maxInFlight (w.inv.differing X listing).card :=
    length_emitted hw.rest hb w.clock listing
  have hwindow := hw.window
  obtain ⟨hpending, hopts, hleft⟩ := acknowledgeAll_pollCore (X := X) hw.rest hb w.clock listing
  have hwf := wf_acknowledgeAll (wf_pollCore (X := X) hw.rest.wf w.clock listing) (es.map Emitted.event)
  -- Whether or not something was emitted, the inventory is the one that acknowledged it all.
  have hpolled : w.polled X listing = { w with
      inv := (w.inv.pollCore X w.clock listing).1.acknowledgeAll (es.map Emitted.event)
      emitted := w.emitted ++ if es = [] then [] else ["\x7b\x7d"] } := by
    simp only [polled, hw.source, Bool.false_eq_true, if_false, hevents]
    cases hcases : es with
    | nil => simp [acknowledgeAll, poll]
    | cons e rest =>
      have htype : e.event.eventType = some "object.changed" :=
        ((pollCore_compare X w.clock listing hb).2.2.2 e (by rw [← hes, hcases]; simp)).2.2.1
      simp [htype, poll]
  rw [hpolled]
  refine ⟨⟨hwf, hpending⟩, hopts, ?_, fun hfits => ?_⟩
  · have hiff : es = [] ↔ ¬ (w.inv.differing X listing).Nonempty := by
      rw [← List.length_eq_zero_iff, hlen, Finset.not_nonempty_iff_eq_empty, ← Finset.card_eq_zero]
      omega
    by_cases hempty : es = []
    · rw [if_pos hempty, if_neg fun hc => hiff.mp hempty hc.2]
    · rw [if_neg hempty, if_pos ⟨hb, not_not.mp fun hc => hempty (hiff.mpr hc)⟩]
  · refine disagree_eq_empty.mp ?_
    show disagree _ _ = ∅
    rw [hleft, keys_of_fits hw.rest hb w.clock hfits, Finset.sdiff_self]

/-- **One iteration** of a resource watch. -/
theorem iterated_polled (hw : w.Resting) (listing : List ObjectEntry) :
    Iterated X w listing (w.polled X listing) := by
  by_cases hb : w.inv.baseline = .silent
  · exact polled_silent hw hb listing
  · exact polled_compare hw hb listing

theorem rest_step {a : WatchAct} (hrest : w.inv.AtRest) (h : w.step X a = some w')
    (ha : ∀ listing, a ≠ .listed (.ok listing)) :
    w'.inv = w.inv ∧ w'.emitted = w.emitted ∧ w'.eventSource = w.eventSource := by
  cases hae : a.isEnv with
  | true =>
    obtain ⟨_, _, _, _, rfl⟩ := env_cases hae h
    exact ⟨rfl, rfl, rfl⟩
  | false =>
    cases a with
    | run =>
      obtain ⟨hinv, -, hsource⟩ := next_cases h
      refine ⟨?_, emitted_next h, hsource⟩
      rcases hinv with hinv | ⟨position, hinv⟩
      · exact hinv
      · rw [hinv, acknowledged_rest hrest.pending]
    | listed result =>
      obtain ⟨-, ⟨listing, rfl, -⟩ | rfl⟩ := listed_cases h
      · exact absurd rfl (ha listing)
      · exact ⟨rfl, rfl, rfl⟩
    | ack | wake | cancel | sendStop | tick => cases hae

theorem resting_of_reach {w₀ : Watch} (h₀ : SpawnedResource X w₀)
    (hr : Reach (Steps X) anyStep w₀ w) : w.Resting := by
  refine hr.invariant h₀.resting ?_
  rintro u a v hu - hstep
  by_cases ha : ∃ listing, a = .listed (.ok listing)
  · obtain ⟨listing, rfl⟩ := ha
    obtain ⟨-, ⟨listed, -, rfl⟩ | rfl⟩ := listed_cases hstep
    · have hit := iterated_polled (X := X) hu listed
      exact ⟨(wf_polled hu.rest.wf listed).2.trans hu.source, hit.rest, hit.options ▸ hu.window⟩
    · exact ⟨hu.source, hu.rest, hu.window⟩
  · obtain ⟨hinv, -, hs⟩ := rest_step hu.rest hstep fun listing he => ha ⟨listing, he⟩
    exact ⟨hs.trans hu.source, hinv ▸ hu.rest, hinv ▸ hu.window⟩

end Resource

/-- A listing that failed, the baseline, and the next listing on its way. -/
def baselineAfterFailure : List WatchAct :=
  [.run, .run, .listed (.error "unreachable"), .run, .tick minInterval, .run, .run, .run,
    .listed (.ok [{ key := "a" }]), .run, .wake, .run, .tick changeSettle, .run, .run, .run, .run]

end Watch

end McpgSdk
