import McpgSdk.Inventory.History

/-!
# Polls are exact diffs and converge

With nothing in flight a poll reports the keys on which the listing and the confirmed one disagree,
as many as the window holds. Acknowledging them settles exactly those keys, so repeated rounds of
poll and acknowledgement reach the listing.

* `Quiescent`: a baseline is set, nothing is in flight, removals are reported;
* `poll_exact`: what a poll of a quiescent inventory emits;
* `acknowledgeAll_window`: acknowledging a whole window in order applies its changes in order;
* `quiescent_round`: a round repairs as many keys as the window holds;
* **`polls_converge`**: the exact diff, the effect of a round, and the number of rounds.
-/

set_option autoImplicit false

namespace McpgSdk

open OrdMap

namespace Inventory

/-- The digests of a listing. -/
def target (X : Externs) (listing : List ObjectEntry) : Digests := digestsOf X (currentOf listing)

/-- A baseline is set, nothing is in flight, and removals are reported. -/
structure Quiescent (inv : Inventory) : Prop where
  wf : inv.WF
  baseline : inv.baseline ≠ .silent
  pending : inv.pending = []
  reported : inv.quietRemovals = false

/-- What a change writes to the confirmed listing. -/
def writeOf (e : Emitted) : String × Option String := (e.change.entry.key, e.change.digest)

section Exact

variable {X : Externs} {inv : Inventory}

theorem live_pending_nil (h : inv.pending = []) (now : Nanos) : (inv.live now).pending = [] := by
  simp [live, expire, h]

theorem pendingDigest_nil (h : inv.pending = []) (k : String) : inv.pendingDigest k = none := by
  simp [pendingDigest, h]

theorem keys_changes (hq : inv.Quiescent) (now : Nanos) (listing : List ObjectEntry) :
    (((inv.live now).changes X (currentOf listing)).map fun c => c.entry.key).toFinset =
      disagree inv.confirmed (target X listing) := by
  have hs : (inv.live now).SeenKeyed := hq.wf.seen
  ext k
  rw [List.mem_toFinset, mem_disagree, List.mem_map]
  constructor
  · rintro ⟨c, hc, rfl⟩
    exact (mem_changes hs hc).2.1
  · intro hne
    refine exists_change hs (fun _ => hq.reported) hne ?_
    rw [pendingDigest_nil (live_pending_nil hq.pending now)]
    exact fun h => by cases h

theorem length_changes (hq : inv.Quiescent) (now : Nanos) (listing : List ObjectEntry) :
    ((inv.live now).changes X (currentOf listing)).length =
      (disagree inv.confirmed (target X listing)).card := by
  rw [← keys_changes hq now listing, List.toFinset_card_of_nodup
    (nodup_changes (hq.wf.live_seen now) listing), List.length_map]

/-- **A poll of a quiescent inventory is an exact diff.** -/
theorem poll_exact (hq : inv.Quiescent) (now : Nanos) (listing : List ObjectEntry) :
    let es := (inv.pollCore X now listing).2
    es.length = min (disagree inv.confirmed (target X listing)).card inv.options.maxInFlight ∧
      (es.map fun e => e.change.entry.key).Nodup ∧
      ∀ e ∈ es, e.change.entry.key ∈ disagree inv.confirmed (target X listing) ∧
        e.change.op = opOf inv.confirmed[e.change.entry.key]?
          (target X listing)[e.change.entry.key]? ∧
        e.change.digest = (target X listing)[e.change.entry.key]? := by
  intro es
  have hc := (pollCore_compare X now listing hq.baseline).1
  refine ⟨?_, nodup_emitted X now listing hq.wf hq.baseline, fun e he => ?_⟩
  · rw [← List.length_map (f := Emitted.change), hc, taken, List.length_take,
      length_changes hq now listing, room, live_pending_nil hq.pending now, Nat.min_comm]
    rfl
  · obtain ⟨hd, hne, -, ho⟩ := spec_of_emitted hq.wf he
    exact ⟨mem_disagree.mpr hne, ho, hd⟩

end Exact

/-! ## Acknowledging a whole window -/

section Window

variable {X : Externs}

theorem acknowledges_head {inv : Inventory} {p : Pending} {rest : List Pending} {position : Json}
    (hp : inv.pending = p :: rest) (hseq : positionSeq position = some p.seq) :
    inv.acknowledges position = some p := by
  simp [acknowledges, hseq, hp]

theorem acknowledgeAll_window {now : Nanos} {es : List Emitted} {inv : Inventory}
    (hp : inv.pending = es.map (entryOf now)) (hs : (es.map Emitted.seq).Pairwise (· < ·))
    (hc : ∀ e ∈ es, e.event.upstreamCursor = some (Cursor.toValue ⟨cursorVersion, e.seq, e.snap⟩)) :
    let r := inv.acknowledgeAll (es.map Emitted.event)
    r.pending = [] ∧ r.confirmed = patchAll inv.confirmed (es.map writeOf) ∧
      r.baseline = inv.baseline ∧ r.options = inv.options ∧
      r.quietRemovals = inv.quietRemovals := by
  induction es generalizing inv with
  | nil => exact ⟨hp, rfl, rfl, rfl, rfl⟩
  | cons e es ih =>
    rw [List.map_cons, List.pairwise_cons] at hs
    have ha := acknowledges_head hp
      (positionSeq_toValue ⟨cursorVersion, e.seq, e.snap⟩ :
        positionSeq (Cursor.toValue ⟨cursorVersion, e.seq, e.snap⟩) = some (entryOf now e).seq)
    -- the changes behind the acknowledged one stay in the window
    have hrest : (inv.acknowledged (Cursor.toValue ⟨cursorVersion, e.seq, e.snap⟩)).pending =
        es.map (entryOf now) := by
      rw [acknowledged_of_some ha]
      dsimp only
      rw [hp, List.map_cons, List.filter_cons_of_neg (by simp), List.filter_eq_self]
      intro q hq
      obtain ⟨e', he', rfl⟩ := List.mem_map.mp hq
      exact decide_eq_true (hs.1 e'.seq (List.mem_map_of_mem he'))
    have h := ih hrest hs.2 fun e' he' => hc e' (List.mem_cons_of_mem e he')
    rw [acknowledged_of_some ha] at h
    simp only [acknowledgeAll, List.map_cons, List.foldl_cons, hc e List.mem_cons_self,
      patchAll_cons, acknowledged_of_some ha]
    exact h

theorem wf_acknowledgeAll {inv : Inventory} (h : inv.WF) (events : List WatchEvent) :
    (inv.acknowledgeAll events).WF := by
  induction events generalizing inv with
  | nil => exact h
  | cons e events ih =>
    rw [acknowledgeAll, List.foldl_cons]
    refine ih ?_
    split
    · exact wf_acknowledged h _
    · exact h

end Window

/-! ## Rounds -/

/-- One round: poll, and acknowledge every event in order. -/
def round (X : Externs) (listing : List ObjectEntry) (inv : Inventory) (now : Nanos) : Inventory :=
  (inv.poll X now listing).1.acknowledgeAll (inv.poll X now listing).2

section Rounds

variable {X : Externs} {inv : Inventory}

/-- **A round** keeps the inventory quiescent and confirms exactly what its poll emitted. -/
theorem quiescent_round (hq : inv.Quiescent) (listing : List ObjectEntry) (now : Nanos) :
    (inv.round X listing now).Quiescent ∧
      (inv.round X listing now).options = inv.options ∧
      (inv.round X listing now).confirmed =
        patchAll inv.confirmed ((inv.pollCore X now listing).2.map writeOf) := by
  obtain ⟨-, hseq, hst, hev⟩ := pollCore_compare X now listing hq.baseline
  have hpend : (inv.pollCore X now listing).1.pending =
      (inv.pollCore X now listing).2.map (entryOf now) := by
    rw [hst]
    dsimp only
    rw [live_pending_nil hq.pending, List.nil_append]
  have hsorted : ((inv.pollCore X now listing).2.map Emitted.seq).Pairwise (· < ·) := by
    rw [hseq]
    exact List.pairwise_lt_range'
  obtain ⟨h1, h2, h3, h4, h5⟩ := acknowledgeAll_window hpend hsorted fun e he => (hev e he).2.2.2.1
  rw [History.confirmed_of_reported hq.wf hq.reported hq.baseline] at h2
  rw [(pollCore_options X now listing inv).1] at h4
  rw [(pollCore_options X now listing inv).2, hq.reported] at h5
  have hknown : (inv.pollCore X now listing).1.baseline = .known := by rw [hst]
  rw [hknown] at h3
  have hround : inv.round X listing now = (inv.pollCore X now listing).1.acknowledgeAll
      ((inv.pollCore X now listing).2.map Emitted.event) := by
    rw [round, events_of_poll hq.wf hq.baseline now listing]
    rfl
  rw [hround]
  exact ⟨⟨wf_acknowledgeAll (wf_pollCore hq.wf now listing) _, by rw [h3]; decide, h1, h5⟩, h4, h2⟩

theorem fst_writeOf (es : List Emitted) :
    (es.map writeOf).map Prod.fst = es.map fun e => e.change.entry.key := by
  rw [List.map_map]
  rfl

theorem disagree_round (hq : inv.Quiescent) (listing : List ObjectEntry) (now : Nanos) :
    disagree (inv.round X listing now).confirmed (target X listing) =
      disagree inv.confirmed (target X listing) \
        ((inv.pollCore X now listing).2.map fun e => e.change.entry.key).toFinset := by
  obtain ⟨-, hnodup, hes⟩ := poll_exact (X := X) hq now listing
  rw [(quiescent_round hq listing now).2.2, disagree_patchAll, fst_writeOf]
  · rw [fst_writeOf]
    exact hnodup
  · intro p hp
    obtain ⟨e, he, rfl⟩ := List.mem_map.mp hp
    exact (hes e he).2.2

theorem card_round (hq : inv.Quiescent) (listing : List ObjectEntry) (now : Nanos) :
    (disagree (inv.round X listing now).confirmed (target X listing)).card =
      (disagree inv.confirmed (target X listing)).card - inv.options.maxInFlight := by
  obtain ⟨hlen, hnodup, hes⟩ := poll_exact (X := X) hq now listing
  rw [disagree_round hq, Finset.card_sdiff_of_subset, List.toFinset_card_of_nodup hnodup,
    List.length_map, hlen]
  · omega
  · intro k hk
    obtain ⟨e, he, rfl⟩ := List.mem_map.mp (List.mem_toFinset.mp hk)
    exact (hes e he).1

/-- Every round repairs a window of keys. -/
theorem rounds_card (hq : inv.Quiescent) (listing : List ObjectEntry) (nows : List Nanos) :
    (nows.foldl (round X listing) inv).Quiescent ∧
      (disagree (nows.foldl (round X listing) inv).confirmed (target X listing)).card =
        (disagree inv.confirmed (target X listing)).card -
          nows.length * inv.options.maxInFlight := by
  induction nows generalizing inv with
  | nil => exact ⟨hq, by simp⟩
  | cons now nows ih =>
    obtain ⟨hq', ho, -⟩ := quiescent_round (X := X) hq listing now
    obtain ⟨h1, h2⟩ := ih hq'
    refine ⟨h1, ?_⟩
    rw [List.foldl_cons, h2, card_round hq, ho, List.length_cons, Nat.succ_mul]
    omega

end Rounds

end Inventory

namespace History

open Inventory

/-- **Polls are exact diffs and converge.** From every reachable state with a baseline, nothing in
flight and no quiet removals, a poll emits as many of the differing keys as the window holds, each
once and with the right operation; acknowledging the events in order confirms the listing on exactly
those keys; and after as many rounds as it takes windows to hold the differences, the confirmed
listing is the listing and a poll emits nothing. -/
theorem polls_converge {X : Externs} {inv₀ : Inventory} {h : History} (h₀ : Started X inv₀)
    (hr : Reach (Steps X) anyStep (start inv₀) h) (hb : h.inv.baseline ≠ .silent)
    (hp : h.inv.pending = []) (hq : h.inv.quietRemovals = false) (now : Nanos)
    (listing : List ObjectEntry) :
    let D := disagree h.inv.confirmed (target X listing)
    let M := h.inv.options.maxInFlight
    let es := (h.inv.pollCore X now listing).2
    let keys : List String := es.map fun e => e.change.entry.key
    (h.inv.poll X now listing).2 = es.map Emitted.event ∧
      es.length = min D.card M ∧ keys.Nodup ∧
      (∀ e ∈ es, Tells e.change e.event ∧ e.change.entry.key ∈ D ∧
        e.change.op = opOf h.inv.confirmed[e.change.entry.key]?
          (target X listing)[e.change.entry.key]? ∧
        e.change.digest = (target X listing)[e.change.entry.key]?) ∧
      (∀ k, (h.inv.round X listing now).confirmed[k]? =
        if k ∈ keys then (target X listing)[k]? else h.inv.confirmed[k]?) ∧
      ∀ nows : List Nanos, 0 < M → nows.length = D.card ⌈/⌉ M →
        (nows.foldl (round X listing) h.inv).confirmed = target X listing ∧
          ∀ later, ((nows.foldl (round X listing) h.inv).poll X later listing).2 = [] := by
  intro D M es keys
  have hqs : h.inv.Quiescent := ⟨(inv_of_reach h₀ hr).wf, hb, hp, hq⟩
  obtain ⟨hlen, hnodup, hes⟩ := poll_exact (X := X) hqs now listing
  have hev := (pollCore_compare X now listing hb).2.2.2
  refine ⟨events_of_poll hqs.wf hqs.baseline now listing, hlen, hnodup,
    fun e he => ⟨(hev e he).2.2.2.2, hes e he⟩, fun k => ?_, fun nows hM hn => ?_⟩
  · have hl := congrFun (look_patchAll h.inv.confirmed (es.map writeOf)) k
    rw [(quiescent_round hqs listing now).2.2]
    refine hl.trans ?_
    split_ifs with hk
    · obtain ⟨e, he, rfl⟩ := List.mem_map.mp hk
      rw [← (hes e he).2.2]
      refine applyAll_of_mem ?_ (List.mem_map_of_mem (f := writeOf) he) _
      rw [fst_writeOf]
      exact hnodup
    · refine applyAll_of_not_mem ?_ _
      rw [fst_writeOf]
      exact hk
  · obtain ⟨hq', hcard⟩ := rounds_card (X := X) hqs listing nows
    have hzero : (disagree (nows.foldl (round X listing) h.inv).confirmed
        (target X listing)).card = 0 := by
      have hle : D.card ≤ M * nows.length := by
        rw [hn]
        exact le_smul_ceilDiv hM
      rw [hcard, Nat.mul_comm]
      exact Nat.sub_eq_zero_of_le hle
    refine ⟨disagree_eq_empty.mp (Finset.card_eq_zero.mp hzero), fun later => ?_⟩
    have hnone := (poll_exact (X := X) hq' later listing).1
    rw [hzero, Nat.zero_min] at hnone
    rw [events_of_poll hq'.wf hq'.baseline, List.length_eq_zero_iff.mp hnone]
    rfl

/-- A window of two, and a listing that creates a key, modifies one and lacks one. -/
def smallWindow : Inventory := fresh { plainOptions with maxInFlight := 2 } ∅ .silent false

theorem polls_converge_smallWindow :
    let h := (start smallWindow).run plainExterns [.poll 0 [{ key := "b" }, { key := "c" }]]
    let listing : List ObjectEntry := [{ key := "a" }, { key := "b", size := some 1 }]
    ((h.inv.pollCore plainExterns 1 listing).2.map fun e => (e.change.entry.key, e.change.op)) =
        [("a", .created), ("b", .modified)] ∧
      ([1, 2].foldl (round plainExterns listing) h.inv).confirmed = target plainExterns listing := by
  refine ⟨by decide +kernel, ?_⟩
  have hcard : (disagree
      ((start smallWindow).run plainExterns [.poll 0 [{ key := "b" }, { key := "c" }]]).inv.confirmed
      (target plainExterns [{ key := "a" }, { key := "b", size := some 1 }])).card = 3 := by
    decide +kernel
  have hstarted : Inventory.Started plainExterns smallWindow :=
    ⟨_, none, smallWindow, none, false, rfl, rfl⟩
  refine ((polls_converge hstarted (reach_run _ _ _) (by decide +kernel)
    (by decide +kernel) (by decide +kernel) 1 _).2.2.2.2.2 [1, 2] (by decide +kernel) ?_).1
  rw [hcard]
  decide +kernel

end History

end McpgSdk
