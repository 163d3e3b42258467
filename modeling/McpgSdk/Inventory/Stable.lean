import McpgSdk.Inventory.Converge

/-!
# A store that holds still

While a store does not change, a watch has a fixed distance to go: the keys on which its confirmed
listing and the store differ. Events may be lost, acknowledged late, twice, out of order or not at all,
and the window may expire and be filled again; the distance moves only with an acknowledgement that
takes effect, by one key for each.

* `Act.Shows`: the polls of a run that list the same digests;
* `Steady`: what is in the window then: no key twice, each with the store's digest, none confirmed;
* `steady_poll`, `steady_ack`: both are kept, and what an effective acknowledgement does to the
  distance;
* **`stable_store`**: the distance and the effective acknowledgements add up to the same number
  throughout; nothing but the store's own state is ever confirmed or reported; and once the window has
  expired the next poll reports again as much of the rest as fits.
-/

set_option autoImplicit false

namespace McpgSdk

open OrdMap

/-- A poll that lists the digests of a store. -/
def Act.Shows (X : Externs) (store : Digests) : Act → Prop
  | .poll _ listing => Inventory.target X listing = store
  | .ack _ => True

namespace Inventory

/-- The window of an inventory whose store holds still. -/
structure Steady (store : Digests) (inv : Inventory) : Prop where
  wf : inv.WF
  baseline : inv.baseline ≠ .silent
  reported : inv.quietRemovals = false
  told : ∀ p ∈ inv.pending, p.digest = store[p.key]? ∧ inv.confirmed[p.key]? ≠ store[p.key]?
  once : (inv.pending.map Pending.key).Nodup

section Steady

variable {X : Externs} {store : Digests} {inv : Inventory}

theorem Quiescent.steady (h : inv.Quiescent) (store : Digests) : inv.Steady store where
  wf := h.wf
  baseline := h.baseline
  reported := h.reported
  told := by simp [h.pending]
  once := by simp [h.pending]

theorem exists_pendingDigest {p : Pending} (hp : p ∈ inv.pending) :
    ∃ d, inv.pendingDigest p.key = some d := by
  have hsome : (inv.pending.reverse.find? fun q => q.key == p.key).isSome = true :=
    List.find?_isSome.mpr ⟨p, List.mem_reverse.mpr hp, beq_self_eq_true _⟩
  obtain ⟨q, hq⟩ := Option.isSome_iff_exists.mp hsome
  exact ⟨q.digest, by rw [pendingDigest, hq]; rfl⟩

theorem key_not_live (hi : inv.Steady store) {now : Nanos} {listing : List ObjectEntry}
    (hstore : target X listing = store) {e : Emitted} (he : e ∈ (inv.pollCore X now listing).2)
    {p : Pending} (hp : p ∈ (inv.live now).pending) : p.key ≠ e.change.entry.key := by
  intro hkey
  obtain ⟨d, hd⟩ := exists_pendingDigest hp
  obtain ⟨q, hq, hqk, rfl⟩ := pendingDigest_mem hd
  have hnot := (spec_of_emitted hi.wf he).2.2.1
  rw [← hkey] at hnot
  refine hnot (hd.trans (congrArg some ?_))
  rw [(hi.told q (mem_live hq)).1, hqk, ← hstore]
  rfl

/-- **A poll of a store that holds still** keeps the window steady and confirms nothing. -/
theorem steady_poll (hi : inv.Steady store) (now : Nanos) {listing : List ObjectEntry}
    (hstore : target X listing = store) :
    (inv.pollCore X now listing).1.Steady store ∧
      (inv.pollCore X now listing).1.confirmed = inv.confirmed := by
  have hconfirmed := History.confirmed_of_reported (X := X) hi.wf hi.reported hi.baseline now listing
  refine ⟨⟨wf_pollCore hi.wf now listing, ?_, ?_, fun p hp => ?_, ?_⟩, hconfirmed⟩
  · rw [(pollCore_compare X now listing hi.baseline).2.2.1]
    nofun
  · rw [(pollCore_options X now listing inv).2]
    exact hi.reported
  · rw [hconfirmed]
    rcases mem_pending_pollCore.mp hp with hp | ⟨e, he, rfl⟩
    · exact hi.told p (mem_live hp)
    · obtain ⟨hd, hne, -⟩ := spec_of_emitted hi.wf he
      rw [← hstore]
      exact ⟨hd, hne⟩
  · rw [pending_pollCore, List.map_append, List.map_map, List.nodup_append]
    refine ⟨hi.once.sublist (List.filter_sublist.map _),
      nodup_emitted X now listing hi.wf hi.baseline, ?_⟩
    intro k hk k' hk'
    obtain ⟨p, hp, rfl⟩ := List.mem_map.mp hk
    obtain ⟨e, he, rfl⟩ := List.mem_map.mp hk'
    exact key_not_live hi hstore he hp

/-- **An acknowledgement that takes effect** settles one key for good. -/
theorem steady_ack (hi : inv.Steady store) {position : Json} {p : Pending}
    (ha : inv.acknowledges position = some p) :
    (inv.acknowledged position).Steady store ∧
      disagree (inv.acknowledged position).confirmed store =
        (disagree inv.confirmed store).erase p.key ∧
      p.key ∈ disagree inv.confirmed store := by
  have hp := (acknowledges_eq_some ha).2
  obtain ⟨hdigest, hne⟩ := hi.told p hp
  have hconfirmed : (inv.acknowledged position).confirmed = patch inv.confirmed p.key p.digest := by
    rw [acknowledged_of_some ha]
  refine ⟨⟨wf_acknowledged hi.wf position, ?_, ?_, fun q hq => ?_, ?_⟩, ?_, mem_disagree.mpr hne⟩
  · rw [acknowledged_baseline]
    exact hi.baseline
  · rw [(acknowledged_options inv position).2]
    exact hi.reported
  · obtain ⟨hq, hseq⟩ := (mem_pending_acknowledged ha).mp hq
    have hkey : q.key ≠ p.key := fun hkey =>
      absurd (List.inj_on_of_nodup_map hi.once hq hp hkey) (by rintro rfl; exact lt_irrefl _ hseq)
    rw [hconfirmed, getElem?_patch, if_neg hkey]
    exact hi.told q hq
  · rw [acknowledged_of_some ha]
    exact hi.once.sublist (List.filter_sublist.map _)
  · ext k
    rw [hconfirmed, Finset.mem_erase, mem_disagree, mem_disagree, getElem?_patch]
    split_ifs with hk
    · subst hk
      simp [hdigest]
    · simp [hk]

/-- Once nothing in the window is left, a poll reports as many of the keys that differ as the window
holds. -/
theorem length_of_expired (hw : inv.WF) (hb : inv.baseline ≠ .silent)
    (hreported : inv.quietRemovals = false) {now : Nanos} (hnone : (inv.live now).pending = [])
    (listing : List ObjectEntry) :
    (inv.pollCore X now listing).2.length =
      min (disagree inv.confirmed (target X listing)).card inv.options.maxInFlight := by
  -- the poll is that of an inventory with nothing in flight
  have hlive : ({ inv with pending := [] } : Inventory).live now = inv.live now := by
    have hfilter : (inv.pending.filter fun p => now - p.atTime < inv.options.ackTimeout) = [] := hnone
    simp only [live, expire, hfilter, List.filter_nil]
  have hquiescent : ({ inv with pending := [] } : Inventory).Quiescent :=
    ⟨⟨hw.seen, List.Pairwise.nil, by simp, fun _ => rfl, hw.gap, by simp⟩, hb, rfl, hreported⟩
  rw [← (poll_exact (X := X) hquiescent now listing).1, ← List.length_map (f := Emitted.change),
    (pollCore_compare X now listing hb).1, ← List.length_map (f := Emitted.change),
    (pollCore_compare X now listing hquiescent.baseline).1, taken, taken, hlive]

theorem live_of_expired {now : Nanos}
    (hexpired : ∀ p ∈ inv.pending, inv.options.ackTimeout ≤ now - p.atTime) :
    (inv.live now).pending = [] :=
  List.filter_eq_nil_iff.mpr fun p hp => by simpa using hexpired p hp

end Steady

end Inventory

namespace History

section Stable

variable {X : Externs} {store : Digests} {h : History}

theorem steady_step (hi : h.inv.Steady store) {a : Act} (ha : a.Shows X store) :
    (h.step X a).inv.Steady store ∧
      (disagree (h.step X a).inv.confirmed store).card + (h.step X a).acks.length =
        (disagree h.inv.confirmed store).card + h.acks.length ∧
      (∀ k : String, (h.step X a).inv.confirmed[k]? = h.inv.confirmed[k]? ∨
        (h.step X a).inv.confirmed[k]? = store[k]?) ∧
      ∀ e ∈ (h.step X a).emits, e ∈ h.emits ∨ e.change.digest = store[e.change.entry.key]? := by
  cases a with
  | poll now listing =>
    have hstore : Inventory.target X listing = store := ha
    obtain ⟨hsteady, hconfirmed⟩ := Inventory.steady_poll hi now hstore
    refine ⟨hsteady, ?_, fun k => .inl ?_, fun e he => ?_⟩
    · rw [acks_poll]
      exact congrArg (fun m => (disagree m store).card + h.acks.length) hconfirmed
    · exact congrArg (fun m : Digests => m[k]?) hconfirmed
    · rw [emits_poll] at he
      refine (List.mem_append.mp he).imp_right fun he => ?_
      rw [← hstore]
      exact (Inventory.spec_of_emitted hi.wf he).1
  | ack position =>
    rw [acks_ack, emits_ack]
    cases hack : h.inv.acknowledges position with
    | none =>
      have hsame : (h.step X (.ack position)).inv = h.inv := Inventory.acknowledged_of_none hack
      rw [hsame]
      exact ⟨hi, by simp, fun k => .inl rfl, fun e he => .inl he⟩
    | some p =>
      obtain ⟨hsteady, hdisagree, hmem⟩ := Inventory.steady_ack hi hack
      refine ⟨hsteady, ?_, fun k => ?_, fun e he => .inl he⟩
      · have hcard := Finset.card_erase_add_one hmem
        simp only [step, hdisagree, List.length_append, Option.toList_some, List.length_singleton]
        omega
      · have hconfirmed : (h.step X (.ack position)).inv.confirmed[k]? =
            if k = p.key then p.digest else h.inv.confirmed[k]? := by
          simp only [step, Inventory.acknowledged_of_some hack, getElem?_patch]
        rw [hconfirmed]
        split_ifs with hk
        · subst hk
          exact .inr (hi.told p (Inventory.acknowledges_eq_some hack).2).1
        · exact .inl rfl

/-- **A store that holds still.** From an inventory with nothing in flight, and for any polls of a store
that does not change and any acknowledgements, real or made up, in any order: the keys still to go and
the acknowledgements that took effect add up to the keys there were to go; every key is confirmed as it
was or as the store has it; every event tells the store's state; and when what is in flight has
expired, a poll reports again as many of the keys still to go as the window holds. -/
theorem stable_store (hq : h.inv.Quiescent) {acts : List Act} (hacts : ∀ a ∈ acts, a.Shows X store) :
    let h' := h.run X acts
    ((disagree h'.inv.confirmed store).card + h'.acks.length =
        (disagree h.inv.confirmed store).card + h.acks.length) ∧
      (∀ k : String, h'.inv.confirmed[k]? = h.inv.confirmed[k]? ∨ h'.inv.confirmed[k]? = store[k]?) ∧
      (∀ e ∈ h'.emits, e ∈ h.emits ∨ e.change.digest = store[e.change.entry.key]?) ∧
      ∀ now listing, Inventory.target X listing = store →
        (∀ p ∈ h'.inv.pending, h'.inv.options.ackTimeout ≤ now - p.atTime) →
        (h'.inv.pollCore X now listing).2.length =
          min (disagree h'.inv.confirmed store).card h'.inv.options.maxInFlight := by
  intro h'
  suffices hall : h'.inv.Steady store ∧
      ((disagree h'.inv.confirmed store).card + h'.acks.length =
        (disagree h.inv.confirmed store).card + h.acks.length) ∧
      (∀ k : String, h'.inv.confirmed[k]? = h.inv.confirmed[k]? ∨ h'.inv.confirmed[k]? = store[k]?) ∧
      ∀ e ∈ h'.emits, e ∈ h.emits ∨ e.change.digest = store[e.change.entry.key]? from
    ⟨hall.2.1, hall.2.2.1, hall.2.2.2, fun now listing hstore hexpired => hstore ▸
      Inventory.length_of_expired hall.1.wf hall.1.baseline hall.1.reported
        (Inventory.live_of_expired hexpired) listing⟩
  induction acts using List.reverseRecOn with
  | nil => exact ⟨hq.steady store, rfl, fun k => .inl rfl, fun e he => .inl he⟩
  | append_singleton acts a ih =>
    obtain ⟨hsteady, hcount, hkeys, hemits⟩ := ih fun b hb => hacts b (List.mem_append_left _ hb)
    have hlast : h' = (h.run X acts).step X a := run_concat X h acts a
    obtain ⟨hsteady', hcount', hkeys', hemits'⟩ :=
      steady_step hsteady (hacts a (List.mem_append_right _ (List.mem_singleton_self a)))
    rw [hlast]
    refine ⟨hsteady', hcount'.trans hcount, fun k => ?_, fun e he => ?_⟩
    · rcases hkeys' k with hk | hk
      · rw [hk]
        exact hkeys k
      · exact .inr hk
    · rcases hemits' e he with he | he
      · exact hemits e he
      · exact .inr he

end Stable

/-- Three new objects and a window of two: the first report is lost, and of the second one event is
acknowledged, twice, and after an acknowledgement of the first that comes too late. -/
def lossy : List Act :=
  [.poll 1 [{ key := "a" }, { key := "b" }, { key := "c" }],
    .poll (millis 60001) [{ key := "a" }, { key := "b" }, { key := "c" }],
    .ack (Cursor.toValue ⟨1, 0, none⟩), .ack (Cursor.toValue ⟨1, 2, none⟩),
    .ack (Cursor.toValue ⟨1, 2, none⟩)]

theorem stable_store_lossy :
    let store := Inventory.target plainExterns [{ key := "a" }, { key := "b" }, { key := "c" }]
    let h := (start smallWindow).run plainExterns [.poll 0 []]
    (h.run plainExterns lossy).emits.length = 4 ∧ (h.run plainExterns lossy).acks.length = 1 ∧
      (disagree (h.run plainExterns lossy).inv.confirmed store).card = 2 := by
  intro store h
  have hq : h.inv.Quiescent := by
    have hstarted : Inventory.Started plainExterns smallWindow :=
      ⟨_, none, smallWindow, none, false, rfl, rfl⟩
    exact ⟨(inv_of_reach hstarted (reach_run plainExterns _ _)).wf, by decide +kernel,
      by decide +kernel, by decide +kernel⟩
  have hacts : ∀ a ∈ lossy, a.Shows plainExterns store := by
    intro a ha
    simp only [lossy, List.mem_cons, List.not_mem_nil, or_false] at ha
    rcases ha with rfl | rfl | rfl | rfl | rfl
    · rfl
    · rfl
    all_goals trivial
  have hcount := (stable_store hq hacts).1
  have hone : (h.run plainExterns lossy).acks.length = 1 := by decide +kernel
  have hthree : (disagree h.inv.confirmed store).card + h.acks.length = 3 := by decide +kernel
  rw [hone, hthree] at hcount
  exact ⟨by decide +kernel, hone, Nat.succ.inj hcount⟩

end History

end McpgSdk
