import McpgSdk.Inventory.Converge

/-!
# Restarting from a stored position

A host acknowledges every event in the order it was emitted, folds the acknowledged changes into a
view of its own, and stores the position of the last one. A restart takes the snapshot of that
position for the listing the host knows. Only the last event of a poll carries a snapshot, and the
snapshot holds the confirmed listing with that event's own change: what was emitted before it and
not yet confirmed stays out, although the host has it in its view by the time it stores the position.

* `Cursor.fromValue_toValue`: a written position is read back;
* `Host`, `Host.step`: the inventory and the host, with what each event was emitted over (`Sent`);
* `Host.Inv`: the view is what the stored event left, kept by every step;
* **`restart_exact_iff`**: a restart is exact for every listing exactly when the stored event has no
  snapshot, so that the restart reports a gap, or was emitted with everything before it confirmed;
* `restart_misses_deletion`: after two changes in one poll a restart misses a deletion.
-/

set_option autoImplicit false

namespace McpgSdk

open OrdMap

/-! ## Positions are read back -/

theorem readDigests_digestFields (m : Digests) : readDigests (digestFields m) = some m := by
  have h : (digestFields m).mapM (fun f : String × Json => f.2.asStr.map fun d => (f.1, d)) =
      some m.toList := by
    rw [digestFields]
    induction m.toList with
    | nil => rfl
    | cons kd l ih =>
      rw [List.map_cons, List.mapM_cons, ih]
      rfl
  rw [readDigests, h, Option.map_some, ofList_toList]

/-- **A written position is read back.** -/
theorem Cursor.fromValue_toValue (c : Cursor) : Cursor.fromValue c.toValue = some c := by
  obtain ⟨v, seq, snap⟩ := c
  cases snap with
  | none => rfl
  | some m =>
    have h : readSnap (some (.obj (digestFields m))) = some (some m) := by
      rw [readSnap, readDigests_digestFields, Option.map_some]
    simp [fromValue, toValue, Json.lookup_cons_ite, h]

namespace Inventory

theorem new_toValue (X : Externs) (options : InventoryOptions) (c : Cursor) :
    new X options (some c.toValue) = .ok (match c.snap with
      | some snap => fresh options snap .known false
      | none => fresh options ∅ .silent true) := by
  rw [new, Cursor.fromValue_toValue]
  obtain ⟨v, seq, snap⟩ := c
  cases snap <;> rfl

/-! ## Listings with given digests -/

/-- A digest, if there is one, is that of an entry with the key. -/
def Shown (X : Externs) (k : String) (v : Option String) : Prop :=
  ∀ d, v = some d → ∃ e : ObjectEntry, e.key = k ∧ e.digest X = d

/-- Every digest is that of an entry with its key. -/
def Listed (X : Externs) (m : Digests) : Prop := ∀ k, Shown X k m[k]?

theorem listed_target (X : Externs) (listing : List ObjectEntry) : Listed X (target X listing) := by
  intro k d h
  rw [target, getElem?_digestsOf, Option.map_eq_some_iff] at h
  obtain ⟨e, he, hd⟩ := h
  exact ⟨e, key_of_currentOf he, hd⟩

theorem listed_patch {X : Externs} {m : Digests} (h : Listed X m) {k : String} {v : Option String}
    (hv : Shown X k v) : Listed X (patch m k v) := by
  intro k' d hd
  rw [getElem?_patch] at hd
  split_ifs at hd with hk
  · exact hk ▸ hv d hd
  · exact h k' d hd

theorem exists_listing {X : Externs} {m : Digests} (h : Listed X m) :
    ∃ listing, target X listing = m := by
  have h' : ∀ k d : String, ∃ e : ObjectEntry, m[k]? = some d → e.key = k ∧ e.digest X = d := by
    intro k d
    by_cases hm : m[k]? = some d
    · obtain ⟨e, he⟩ := h k d hm
      exact ⟨e, fun _ => he⟩
    · exact ⟨{ key := k }, fun h => absurd h hm⟩
  choose f hf using h'
  refine ⟨m.toList.map fun kd => f kd.1 kd.2, ?_⟩
  have hcur : currentOf (m.toList.map fun kd => f kd.1 kd.2) = m.map f := by
    rw [currentOf, ← ofList_toList (m.map f), Std.ExtTreeMap.toList_map, List.map_map]
    congr 1
    refine List.map_congr_left fun kd hkd => ?_
    rw [Std.ExtTreeMap.mem_toList_iff_getElem?_eq_some] at hkd
    exact Prod.ext (hf kd.1 kd.2 hkd).1 rfl
  refine Std.ExtTreeMap.ext_getElem? fun k => ?_
  rw [target, getElem?_digestsOf, hcur, Std.ExtTreeMap.getElem?_map, Option.map_map]
  cases hk : m[k]? with
  | none => rfl
  | some d => exact congrArg some (hf k d hk).2

end Inventory

/-! ## The host -/

/-- A host's view: key to digest. -/
abbrev View : Type := String → Option String

/-- An emitted event with what it was emitted over: the view the host has once it acknowledged every
event before this one, and the confirmed listing. -/
structure Sent where
  emitted : Emitted
  view : View
  confirmed : Digests

/-- An inventory and its host. -/
structure Host where
  inv : Inventory
  view : View
  /-- Events emitted and not yet acknowledged, in order. -/
  queue : List Sent
  /-- The last event acknowledged; the host stores its position. -/
  stored : Option Sent

namespace Sent

/-- What the event's change writes. -/
def write (s : Sent) : String × Option String := Inventory.writeOf s.emitted

/-- The events of one poll, each over the view the ones before it leave. -/
def sentOf (confirmed : Digests) : View → List Emitted → List Sent
  | _, [] => []
  | view, e :: es =>
    ⟨e, view, confirmed⟩ ::
      sentOf confirmed (Function.update view e.change.entry.key e.change.digest) es

/-- Everything emitted before the event was confirmed: the view and the confirmed listing agree on
every key but the event's own. -/
def Settled (s : Sent) : Prop :=
  ∀ k, k ≠ s.emitted.change.entry.key → s.view k = s.confirmed[k]?

end Sent

/-- A step of an inventory and its host. -/
inductive HostAct
  | poll (now : Nanos) (listing : List ObjectEntry)
  | ack

namespace Host

/-- A host that knows the confirmed listing an inventory starts with. -/
def start (inv : Inventory) : Host := ⟨inv, look inv.confirmed, [], none⟩

/-- The view once every event in the queue is acknowledged. -/
def ahead (h : Host) : View := applyAll h.view (h.queue.map Sent.write)

/-- One step: a poll, or the acknowledgement of the next event. The first listing of a silent start
is the view's baseline. -/
def step (X : Externs) (h : Host) : HostAct → Host
  | .poll now listing =>
    let r := h.inv.pollCore X now listing
    { h with
      inv := r.1
      view := if h.inv.baseline = .silent then look (Inventory.target X listing) else h.view
      queue := h.queue ++ Sent.sentOf h.inv.confirmed h.ahead r.2 }
  | .ack =>
    match h.queue with
    | [] => h
    | s :: rest =>
      { inv := match s.emitted.event.upstreamCursor with
          | some position => h.inv.acknowledged position
          | none => h.inv
        view := Function.update h.view s.emitted.change.entry.key s.emitted.change.digest
        queue := rest
        stored := some s }

/-- The step relation. -/
def Steps (X : Externs) (h : Host) (a : HostAct) (h' : Host) : Prop := h' = h.step X a

/-- A run of several steps. -/
def run (X : Externs) (h : Host) (acts : List HostAct) : Host := acts.foldl (step X) h

theorem reach_run (X : Externs) (h : Host) (acts : List HostAct) :
    Reach (Steps X) anyStep h (h.run X acts) := by
  have hstep : ∀ g a, Steps X g a (g.step X a) := fun _ _ => rfl
  exact Reach.of_foldl hstep h acts fun _ _ _ _ => trivial

/-- A restart from the stored position is exact: whatever listing it sees first, as long as the
window holds all its differences from the position's snapshot, it reports a gap, or the events it
emits bring the view to that listing. -/
def RestartExact (X : Externs) (h : Host) (stored : Sent) : Prop :=
  ∃ position inv, stored.emitted.event.upstreamCursor = some position ∧
    Inventory.new X h.inv.options (some position) = .ok inv ∧
    ∀ now listing, (disagree inv.confirmed (Inventory.target X listing)).card ≤
        inv.options.maxInFlight →
      (∃ e ∈ (inv.poll X now listing).2, e.gap = true) ∨
        applyAll h.view ((inv.pollCore X now listing).2.map Inventory.writeOf) =
          look (Inventory.target X listing)

/-! ## The view and the queue -/

/-- Each event was emitted over the view the ones before it leave. -/
def Chain : View → List Sent → Prop
  | _, [] => True
  | view, s :: rest => s.view = view ∧ Chain (Function.update view s.write.1 s.write.2) rest

theorem chain_append {view : View} {q q' : List Sent} :
    Chain view (q ++ q') ↔ Chain view q ∧ Chain (applyAll view (q.map Sent.write)) q' := by
  induction q generalizing view with
  | nil => simp [Chain]
  | cons s q ih => simp only [List.cons_append, Chain, ih, List.map_cons, applyAll_cons, and_assoc]

theorem chain_sentOf (confirmed : Digests) (view : View) (es : List Emitted) :
    Chain view (Sent.sentOf confirmed view es) := by
  induction es generalizing view with
  | nil => trivial
  | cons e es ih => exact ⟨rfl, ih _⟩

theorem mem_sentOf {confirmed : Digests} {view : View} {es : List Emitted} {s : Sent}
    (h : s ∈ Sent.sentOf confirmed view es) : s.emitted ∈ es ∧ s.confirmed = confirmed := by
  induction es generalizing view with
  | nil => cases h
  | cons e es ih =>
    rcases List.mem_cons.mp h with rfl | h
    · exact ⟨List.mem_cons_self, rfl⟩
    · exact ⟨List.mem_cons_of_mem e (ih h).1, (ih h).2⟩

/-- What an event says: its position, and as its snapshot the confirmed listing it was emitted over
with its own change. -/
structure Honest (s : Sent) : Prop where
  position : s.emitted.event.upstreamCursor =
    some (Cursor.toValue ⟨cursorVersion, s.emitted.seq, s.emitted.snap⟩)
  snap : ∀ m, s.emitted.snap = some m → m = patch s.confirmed s.write.1 s.write.2

/-- The host and the inventory belong together. -/
structure Inv (h : Host) : Prop where
  wf : h.inv.WF
  reported : h.inv.quietRemovals = false
  untouched : h.inv.baseline = .silent → h.queue = [] ∧ h.stored = none
  chain : Chain h.view h.queue
  queued : ∀ s ∈ h.queue, Honest s
  stored : ∀ s, h.stored = some s →
    Honest s ∧ h.view = Function.update s.view s.write.1 s.write.2

theorem inv_start {X : Externs} {inv : Inventory} (h : Inventory.Started X inv)
    (hq : inv.quietRemovals = false) : (start inv).Inv :=
  ⟨h.wf, hq, fun _ => ⟨rfl, rfl⟩, trivial, by simp [start], by simp [start]⟩

theorem inv_poll {X : Externs} {h : Host} (hi : h.Inv) (now : Nanos)
    (listing : List ObjectEntry) : (h.step X (.poll now listing)).Inv := by
  have hw' := Inventory.wf_pollCore (X := X) hi.wf now listing
  have hq' := (Inventory.pollCore_options X now listing h.inv).2.trans hi.reported
  by_cases hb : h.inv.baseline = .silent
  · -- nothing was emitted yet: the listing becomes the baseline of both
    obtain ⟨hqueue, hstored⟩ := hi.untouched hb
    have hc := Inventory.pollCore_silent X now listing hb
    have hqueue' : (h.step X (.poll now listing)).queue = [] := by
      simp only [step, hc, hqueue]
      rfl
    refine ⟨hw', hq', fun hs => ?_, ?_, ?_, ?_⟩
    · simp only [step, hc] at hs
      cases hs
    · rw [hqueue']
      trivial
    · rw [hqueue']
      exact fun s hs => by cases hs
    · intro s hs
      rw [show (h.step X (.poll now listing)).stored = h.stored from rfl, hstored] at hs
      cases hs
  · obtain ⟨-, -, hst, hev⟩ := Inventory.pollCore_compare X now listing hb
    have hconf := History.confirmed_of_reported (X := X) hi.wf hi.reported hb now listing
    have hview : (h.step X (.poll now listing)).view = h.view := if_neg hb
    refine ⟨hw', hq', fun hs => ?_, ?_, ?_, ?_⟩
    · simp only [step] at hs
      rw [hst] at hs
      cases hs
    · rw [hview]
      exact chain_append.mpr ⟨hi.chain, chain_sentOf _ _ _⟩
    · intro s hs
      rcases List.mem_append.mp hs with hs | hs
      · exact hi.queued s hs
      · obtain ⟨he, hsc⟩ := mem_sentOf hs
        obtain ⟨hsnap, -, -, hpos, -⟩ := hev s.emitted he
        refine ⟨hpos, fun m hm => ?_⟩
        have hm' := hsnap m hm
        have hkept : (Inventory.forget (Inventory.currentOf listing) (h.inv.live now)).confirmed =
            h.inv.confirmed := by
          rw [← hconf, hst]
        rw [hkept] at hm'
        rw [hsc]
        exact hm'
    · rw [hview]
      exact hi.stored

theorem step_ack {X : Externs} {h : Host} (hi : h.Inv) {s : Sent} {rest : List Sent}
    (hqueue : h.queue = s :: rest) :
    h.step X .ack = ⟨h.inv.acknowledged
      (Cursor.toValue ⟨cursorVersion, s.emitted.seq, s.emitted.snap⟩),
      Function.update h.view s.write.1 s.write.2, rest, some s⟩ := by
  have hs := hi.queued s (hqueue ▸ List.mem_cons_self)
  simp only [step, hqueue, hs.position]
  rfl

theorem inv_ack {X : Externs} {h : Host} (hi : h.Inv) : (h.step X .ack).Inv := by
  cases hqueue : h.queue with
  | nil =>
    have hs : h.step X .ack = h := by simp only [step, hqueue]
    rwa [hs]
  | cons s rest =>
    have hs := hi.queued s (hqueue ▸ List.mem_cons_self)
    have hchain := hi.chain
    rw [hqueue] at hchain
    rw [step_ack hi hqueue]
    refine ⟨Inventory.wf_acknowledged hi.wf _,
      (Inventory.acknowledged_options h.inv _).2.trans hi.reported, fun hb => ?_, hchain.2,
      fun s' hs' => hi.queued s' ?_, ?_⟩
    · rw [Inventory.acknowledged_baseline] at hb
      rw [(hi.untouched hb).1] at hqueue
      cases hqueue
    · exact hqueue ▸ List.mem_cons_of_mem s hs'
    · intro s' hs'
      obtain rfl := Option.some.inj hs'
      exact ⟨hs, by rw [hchain.1]⟩

theorem inv_of_reach {X : Externs} {inv₀ : Inventory} {h : Host} (h₀ : Inventory.Started X inv₀)
    (hq : inv₀.quietRemovals = false) (hr : Reach (Steps X) anyStep (start inv₀) h) : h.Inv := by
  refine hr.invariant (inv_start h₀ hq) fun u a v hu _ hs => ?_
  obtain rfl : v = u.step X a := hs
  cases a with
  | poll now listing => exact inv_poll hu now listing
  | ack => exact inv_ack hu

/-! ## Digests of listed entries -/

/-- Every digest the inventory holds, and every one an event was emitted over, is that of an entry. -/
structure AllListed (X : Externs) (h : Host) : Prop where
  confirmed : Inventory.Listed X h.inv.confirmed
  window : ∀ p ∈ h.inv.pending, Inventory.Shown X p.key p.digest
  sent : ∀ s, s ∈ h.queue ∨ h.stored = some s →
    Inventory.Listed X s.confirmed ∧ Inventory.Shown X s.write.1 s.write.2

theorem shown_of_emitted {X : Externs} {inv : Inventory} (hw : inv.WF)
    {now : Nanos} {listing : List ObjectEntry} {e : Emitted}
    (he : e ∈ (inv.pollCore X now listing).2) :
    Inventory.Shown X e.change.entry.key e.change.digest := by
  rw [(Inventory.spec_of_emitted hw he).1]
  exact Inventory.listed_target X listing _

theorem allListed_poll {X : Externs} {h : Host} (hi : h.Inv) (hl : h.AllListed X) (now : Nanos)
    (listing : List ObjectEntry) : (h.step X (.poll now listing)).AllListed X := by
  by_cases hb : h.inv.baseline = .silent
  · have hc := Inventory.pollCore_silent X now listing hb
    simp only [step, hc]
    refine ⟨Inventory.listed_target X listing, fun p hp => hl.window p (Inventory.mem_live hp),
      fun s hs => hl.sent s ?_⟩
    simpa [Sent.sentOf] using hs
  · have hconf := History.confirmed_of_reported (X := X) hi.wf hi.reported hb now listing
    refine ⟨?_, fun p hp => ?_, ?_⟩
    · simp only [step, hconf]
      exact hl.confirmed
    · rcases Inventory.mem_pending_pollCore.mp hp with hp | ⟨e, he, rfl⟩
      · exact hl.window p (Inventory.mem_live hp)
      · exact shown_of_emitted hi.wf he
    · rintro s (hs | hs)
      · rcases List.mem_append.mp hs with hs | hs
        · exact hl.sent s (.inl hs)
        · obtain ⟨he, hsc⟩ := mem_sentOf hs
          exact ⟨hsc ▸ hl.confirmed, shown_of_emitted hi.wf he⟩
      · exact hl.sent s (.inr hs)

theorem allListed_ack {X : Externs} {h : Host} (hi : h.Inv) (hl : h.AllListed X) :
    (h.step X .ack).AllListed X := by
  cases hqueue : h.queue with
  | nil =>
    have hs : h.step X .ack = h := by simp only [step, hqueue]
    rwa [hs]
  | cons s rest =>
    rw [step_ack hi hqueue]
    have hsent : ∀ s', s' ∈ rest ∨ some s = some s' →
        Inventory.Listed X s'.confirmed ∧ Inventory.Shown X s'.write.1 s'.write.2 := by
      rintro s' (hs' | hs')
      · exact hl.sent s' (.inl (hqueue ▸ List.mem_cons_of_mem s hs'))
      · obtain rfl := Option.some.inj hs'
        exact hl.sent s (.inl (hqueue ▸ List.mem_cons_self))
    cases ha : h.inv.acknowledges
        (Cursor.toValue ⟨cursorVersion, s.emitted.seq, s.emitted.snap⟩) with
    | none =>
      rw [Inventory.acknowledged_of_none ha]
      exact ⟨hl.confirmed, hl.window, hsent⟩
    | some p =>
      rw [Inventory.acknowledged_of_some ha]
      have hp := hl.window p (Inventory.acknowledges_eq_some ha).2
      exact ⟨Inventory.listed_patch hl.confirmed hp,
        fun p hp => hl.window p (List.mem_of_mem_filter hp), hsent⟩

theorem allListed_of_reach {X : Externs} {inv₀ : Inventory} {h : Host}
    (h₀ : Inventory.Started X inv₀) (hq : inv₀.quietRemovals = false)
    (hl : Inventory.Listed X inv₀.confirmed) (hr : Reach (Steps X) anyStep (start inv₀) h) :
    h.AllListed X := by
  have hstart : (start inv₀).AllListed X := by
    obtain ⟨options, resume, inv, hook, quiet, hnew, rfl⟩ := h₀
    obtain ⟨confirmed, baseline, gap, rfl, -, -⟩ := Inventory.new_eq_ok hnew
    exact ⟨hl, by simp [start, Inventory.fresh], by simp [start]⟩
  have h : h.Inv ∧ h.AllListed X := by
    refine hr.invariant (I := fun h => h.Inv ∧ h.AllListed X) ⟨inv_start h₀ hq, hstart⟩
      fun u a v hu _ hs => ?_
    obtain rfl : v = u.step X a := hs
    cases a with
    | poll now listing => exact ⟨inv_poll hu.1 now listing, allListed_poll hu.1 hu.2 now listing⟩
    | ack => exact ⟨inv_ack hu.1, allListed_ack hu.1 hu.2⟩
  exact h.2

end Host

/-! ## Restarts -/

namespace Inventory

theorem quiescent_fresh (options : InventoryOptions) (m : Digests) :
    (fresh options m .known false).Quiescent := by
  refine ⟨⟨fun k e he => ?_, List.Pairwise.nil, ?_, ?_, ?_, ?_⟩, ?_, rfl, rfl⟩
  · simp [fresh] at he
  all_goals simp [fresh]

/-- A poll whose window holds every difference brings a view to the listing, on the keys that
differ. -/
theorem applyAll_poll {X : Externs} {inv : Inventory} (hq : inv.Quiescent) (now : Nanos)
    (listing : List ObjectEntry)
    (hroom : (disagree inv.confirmed (target X listing)).card ≤ inv.options.maxInFlight)
    (view : View) (k : String) :
    applyAll view ((inv.pollCore X now listing).2.map writeOf) k =
      if inv.confirmed[k]? = (target X listing)[k]? then view k else (target X listing)[k]? := by
  obtain ⟨hlen, hnodup, hes⟩ := poll_exact (X := X) hq now listing
  rw [Nat.min_eq_left hroom] at hlen
  -- as many distinct keys as there are differences: all of them
  have hall : ((inv.pollCore X now listing).2.map fun e => e.change.entry.key).toFinset =
      disagree inv.confirmed (target X listing) := by
    refine Finset.eq_of_subset_of_card_le (fun k hk => ?_) ?_
    · obtain ⟨e, he, rfl⟩ := List.mem_map.mp (List.mem_toFinset.mp hk)
      exact (hes e he).1
    · rw [List.toFinset_card_of_nodup hnodup, List.length_map, hlen]
  have hmem : k ∈ ((inv.pollCore X now listing).2.map writeOf).map Prod.fst ↔
      inv.confirmed[k]? ≠ (target X listing)[k]? := by
    rw [fst_writeOf, ← List.mem_toFinset, hall, mem_disagree]
  split_ifs with hk
  · exact applyAll_of_not_mem (fun h => hmem.mp h hk) view
  · have hk' := hmem.mpr hk
    rw [fst_writeOf] at hk'
    obtain ⟨e, he, rfl⟩ := List.mem_map.mp hk'
    rw [← (hes e he).2.2]
    refine applyAll_of_mem ?_ (List.mem_map_of_mem (f := writeOf) he) view
    rw [fst_writeOf]
    exact hnodup

/-- A restart from the snapshot `m` is exact for every listing. -/
def SnapshotExact (X : Externs) (options : InventoryOptions) (m : Digests) (view : View) : Prop :=
  ∀ now listing, (disagree m (target X listing)).card ≤ options.maxInFlight →
    (∃ e ∈ ((fresh options m .known false).poll X now listing).2, e.gap = true) ∨
      applyAll view (((fresh options m .known false).pollCore X now listing).2.map writeOf) =
        look (target X listing)

theorem snapshotExact_look (X : Externs) (options : InventoryOptions) (m : Digests) :
    SnapshotExact X options m (look m) := by
  intro now listing hroom
  refine .inr (funext fun k => ?_)
  rw [applyAll_poll (quiescent_fresh options m) now listing hroom]
  split_ifs with hk
  · exact hk
  · rfl

/-- A listing with the snapshot's digests makes no event, so the view must be the snapshot. -/
theorem view_of_snapshotExact {X : Externs} {options : InventoryOptions} {m : Digests}
    (hl : Listed X m) {view : View} (h : SnapshotExact X options m view) : view = look m := by
  have hq := quiescent_fresh options m
  obtain ⟨listing, rfl⟩ := exists_listing hl
  have hzero : (disagree (target X listing) (target X listing)).card = 0 :=
    Finset.card_eq_zero.mpr (disagree_eq_empty.mpr rfl)
  have hnone := (poll_exact (X := X) hq 0 listing).1
  rw [show (fresh options (target X listing) .known false).confirmed = target X listing from rfl,
    hzero, Nat.zero_min, List.length_eq_zero_iff] at hnone
  rcases h 0 listing (by omega) with ⟨e, he, -⟩ | h
  · rw [events_of_poll hq.wf hq.baseline, hnone] at he
    cases he
  · rw [hnone] at h
    exact h

end Inventory

namespace Host

theorem restartExact_iff_snapshotExact {X : Externs} {h : Host} {stored : Sent}
    (hhonest : Honest stored) {m : Digests} (hsnap : stored.emitted.snap = some m) :
    RestartExact X h stored ↔ Inventory.SnapshotExact X h.inv.options m h.view := by
  have hnew := Inventory.new_toValue X h.inv.options ⟨cursorVersion, stored.emitted.seq, some m⟩
  have hposition := hhonest.position
  rw [hsnap] at hposition
  constructor
  · rintro ⟨position, inv, hpos, hinv, hexact⟩
    rw [hposition, Option.some.injEq] at hpos
    rw [← hpos, hnew, Except.ok.injEq] at hinv
    subst hinv
    exact hexact
  · exact fun hexact =>
      ⟨_, Inventory.fresh h.inv.options m .known false, hposition, hnew, hexact⟩

/-- The view and the snapshot are the two listings the event was emitted over, with its change. -/
theorem view_eq_iff_settled {h : Host} {stored : Sent} {m : Digests}
    (hview : h.view = Function.update stored.view stored.write.1 stored.write.2)
    (hm : m = patch stored.confirmed stored.write.1 stored.write.2) :
    h.view = look m ↔ stored.Settled := by
  rw [hview, hm, look_patch, funext_iff]
  refine forall_congr' fun k => ?_
  by_cases hk : k = stored.write.1
  · rw [hk, Function.update_self, Function.update_self]
    exact iff_of_true rfl fun h => absurd rfl h
  · rw [Function.update_of_ne hk, Function.update_of_ne hk]
    exact ⟨fun h _ => h, fun h => h hk⟩

/-- **When a restart is exact.** In every reachable state the restart from the stored position is
exact for every listing if the stored event carries no snapshot, and the restart reports a gap, or
everything emitted before that event was confirmed when it was emitted. It is exact only then, as
long as a snapshot the run itself started from holds digests of entries. -/
theorem restart_exact_iff {X : Externs} {inv₀ : Inventory} {h : Host} {stored : Sent}
    (h₀ : Inventory.Started X inv₀) (hq : inv₀.quietRemovals = false)
    (hr : Reach (Steps X) anyStep (start inv₀) h) (hs : h.stored = some stored) :
    (stored.emitted.snap = none ∨ stored.Settled → RestartExact X h stored) ∧
      (Inventory.Listed X inv₀.confirmed → RestartExact X h stored →
        stored.emitted.snap = none ∨ stored.Settled) := by
  obtain ⟨hhonest, hview⟩ := (inv_of_reach h₀ hq hr).stored stored hs
  cases hsnap : stored.emitted.snap with
  | none =>
    refine ⟨fun _ => ?_, fun _ _ => .inl rfl⟩
    have hnew := Inventory.new_toValue X h.inv.options
      ⟨cursorVersion, stored.emitted.seq, stored.emitted.snap⟩
    refine ⟨_, _, hhonest.position, hnew, fun now listing _ => .inl ?_⟩
    rw [hsnap]
    exact ⟨{ gap := true }, List.mem_append_left _ (List.mem_singleton_self _), rfl⟩
  | some m =>
    have hm := hhonest.snap m hsnap
    rw [restartExact_iff_snapshotExact hhonest hsnap, ← view_eq_iff_settled hview hm]
    refine ⟨fun h' => ?_, fun hl hexact => .inr ?_⟩
    · rw [h'.resolve_left (Option.some_ne_none m)]
      exact Inventory.snapshotExact_look X h.inv.options m
    · obtain ⟨hconfirmed, hwrite⟩ := (allListed_of_reach h₀ hq hl hr).sent stored (.inr hs)
      exact Inventory.view_of_snapshotExact (hm ▸ Inventory.listed_patch hconfirmed hwrite) hexact

/-- One change, acknowledged. -/
def oneChange : List HostAct := [.poll 0 [], .poll 1 [{ key := "a" }], .ack]

theorem restart_exact_iff_oneChange :
    ∃ stored, ((start Inventory.plainInventory).run plainExterns oneChange).stored = some stored ∧
      stored.emitted.snap ≠ none ∧
      RestartExact plainExterns ((start Inventory.plainInventory).run plainExterns oneChange)
        stored := by
  obtain ⟨stored, hs⟩ := Option.isSome_iff_exists.mp
    (show ((start Inventory.plainInventory).run plainExterns oneChange).stored.isSome by
      decide +kernel)
  have hsnap : (((start Inventory.plainInventory).run plainExterns oneChange).stored.bind
      fun s => s.emitted.snap).isSome := by decide +kernel
  rw [hs, Option.bind_some] at hsnap
  refine ⟨stored, hs, Option.isSome_iff_ne_none.mp hsnap, ?_⟩
  refine (restart_exact_iff Inventory.plainInventory_started rfl (reach_run _ _ _) hs).1 (.inr ?_)
  obtain rfl := Option.some.inj hs
  intro k _
  rfl

/-- Two changes in one poll, both acknowledged. -/
def twoChanges : List HostAct :=
  [.poll 0 [], .poll 1 [{ key := "a" }, { key := "b" }], .ack, .ack]

/-- What the listing of `b` alone makes of a restart after `twoChanges`: no gap, and the view keeps
`a`, which the listing lacks. -/
def keepsA (view : View) (inv : Inventory) : Bool :=
  let listing : List ObjectEntry := [{ key := "b" }]
  decide ((disagree inv.confirmed (Inventory.target plainExterns listing)).card ≤
      inv.options.maxInFlight) &&
    !(inv.poll plainExterns 2 listing).2.any WatchEvent.gap &&
    (applyAll view ((inv.pollCore plainExterns 2 listing).2.map Inventory.writeOf) "a").isSome &&
    !(Inventory.target plainExterns listing)["a"]?.isSome

/-- **A restart misses a deletion.** The snapshot of the second change lacks the first, so a listing
that lacks it too makes no event, and the host keeps the object in its view. -/
theorem restart_misses_deletion :
    ¬ ∀ (X : Externs) (inv₀ : Inventory), Inventory.Started X inv₀ → inv₀.quietRemovals = false →
      ∀ h, Reach (Steps X) anyStep (start inv₀) h →
        ∀ stored, h.stored = some stored → stored.emitted.snap ≠ none → RestartExact X h stored := by
  intro H
  set h := (start Inventory.plainInventory).run plainExterns twoChanges with hh
  obtain ⟨stored, hs⟩ := Option.isSome_iff_exists.mp (show h.stored.isSome by decide +kernel)
  have hsnap : (h.stored.bind fun s => s.emitted.snap).isSome := by decide +kernel
  rw [hs, Option.bind_some] at hsnap
  obtain ⟨position, inv, hpos, hnew, hexact⟩ := H plainExterns _ Inventory.plainInventory_started rfl
    h (reach_run _ _ _) stored hs (Option.isSome_iff_ne_none.mp hsnap)
  have hkeeps : ((h.stored.bind fun s => s.emitted.event.upstreamCursor).bind fun p =>
      (Inventory.new plainExterns h.inv.options (some p)).toOption).all (keepsA h.view) := by
    decide +kernel
  rw [hs, Option.bind_some, hpos, Option.bind_some, hnew] at hkeeps
  simp only [Except.toOption, Option.all_some, keepsA, Bool.and_eq_true, decide_eq_true_eq,
    Bool.not_eq_true', List.any_eq_false] at hkeeps
  obtain ⟨⟨⟨hroom, hgap⟩, hview⟩, htarget⟩ := hkeeps
  rcases hexact 2 [{ key := "b" }] hroom with ⟨e, he, hg⟩ | heq
  · exact hgap e he hg
  · rw [heq] at hview
    exact Bool.false_ne_true (htarget.symm.trans hview)

end Host

end McpgSdk
