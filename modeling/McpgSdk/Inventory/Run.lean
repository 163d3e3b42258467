import McpgSdk.Inventory.Diff
import McpgSdk.Lib.Run

/-!
# Runs of an inventory

A run interleaves polls of any listings with acknowledgements of any positions, from an inventory
as a watch starts it (`Started`).

* `WF`: what every reachable inventory satisfies, kept by **`wf_pollCore`** and
  **`wf_acknowledged`**;
* `pollCore_options`, `acknowledged_options`: the options stay.
-/

set_option autoImplicit false

namespace McpgSdk

open OrdMap

namespace Inventory

/-- What every reachable inventory satisfies. -/
structure WF (inv : Inventory) : Prop where
  seen : inv.SeenKeyed
  sorted : (inv.pending.map Pending.seq).Pairwise (· < ·)
  below : ∀ p ∈ inv.pending, p.seq < inv.nextSeq
  silent : inv.baseline = .silent → inv.pending = []
  gap : inv.gap = true → inv.baseline = .silent
  quiet : inv.quietRemovals = true → ∀ p ∈ inv.pending, p.digest ≠ none

/-- An inventory as a watch starts it: made by `new`, with the hooks the plugin asked for. -/
def Started (X : Externs) (inv : Inventory) : Prop :=
  ∃ options resume inv₀ hook quiet, new X options resume = .ok inv₀ ∧
    inv = { inv₀ with describe := hook, quietRemovals := quiet }

theorem new_eq_ok {X : Externs} {options : InventoryOptions} {resume : Option Json}
    {inv : Inventory} (h : new X options resume = .ok inv) :
    ∃ confirmed baseline gap, inv = fresh options confirmed baseline gap ∧
      (gap = true → baseline = .silent) ∧ (baseline = .silent → confirmed = ∅) := by
  unfold new at h
  split at h
  · cases h
    exact ⟨_, _, _, rfl, by simp, fun _ => rfl⟩
  · split at h <;> cases h
    · exact ⟨_, _, _, rfl, by simp, by simp⟩
    · exact ⟨_, _, _, rfl, fun _ => rfl, fun _ => rfl⟩

theorem Started.wf {X : Externs} {inv : Inventory} (h : Started X inv) : inv.WF := by
  obtain ⟨options, resume, inv₀, hook, quiet, hnew, rfl⟩ := h
  obtain ⟨confirmed, baseline, gap, rfl, hg, -⟩ := new_eq_ok hnew
  refine ⟨fun k e he => ?_, List.Pairwise.nil, ?_, fun _ => rfl, hg, ?_⟩
  · simp [fresh] at he
  all_goals simp [fresh]

theorem Started.pending {X : Externs} {inv : Inventory} (h : Started X inv) : inv.pending = [] := by
  obtain ⟨options, resume, inv₀, hook, quiet, hnew, rfl⟩ := h
  obtain ⟨confirmed, baseline, gap, rfl, -, -⟩ := new_eq_ok hnew
  rfl

/-- Options for evaluating on concrete inputs. -/
def plainOptions : InventoryOptions where
  store := "file"
  location := "/in"
  interval := minInterval
  start := .now
  snapshotBytes := 65536
  maxInFlight := 100
  ackTimeout := millis 60000

/-- A fresh inventory with those options. -/
def plainInventory : Inventory := fresh plainOptions ∅ .silent false

theorem plainInventory_started : Started plainExterns plainInventory :=
  ⟨plainOptions, none, plainInventory, none, false, rfl, rfl⟩

/-! ## Polls keep the invariant -/

theorem seenKeyed_insertAll {m : BTreeMap String ObjectEntry} {l : List (String × ObjectEntry)}
    (h : ∀ (k : String) (e : ObjectEntry), m[k]? = some e → e.key = k) (k : String)
    (e : ObjectEntry) (he : (l.foldl (fun m ke => m.insert ke.2.key ke.2) m)[k]? = some e) :
    e.key = k := by
  induction l generalizing m with
  | nil => exact h k e he
  | cons p l ih =>
    refine ih (fun k' e' he' => ?_) he
    rw [getElem?_insert_ite] at he'
    split_ifs at he' with hk
    · exact (Option.some.inj he') ▸ hk.symm
    · exact h k' e' he'

theorem seenKeyed_forget {inv : Inventory} (h : inv.SeenKeyed)
    (current : BTreeMap String ObjectEntry) : (forget current inv).SeenKeyed := by
  unfold forget
  split_ifs
  · intro k e he
    dsimp only at he
    rw [getElem?_foldl_erase] at he
    split_ifs at he
    exact h k e he
  · exact h

theorem digest_of_quiet {X : Externs} {inv : Inventory} (hq : inv.quietRemovals = true)
    {current : BTreeMap String ObjectEntry} {c : Change} (h : c ∈ inv.changes X current) :
    c.digest ≠ none := by
  simp only [changes, hq, if_true, List.append_nil, List.mem_filterMap] at h
  obtain ⟨ke, -, hc⟩ := h
  obtain ⟨-, -, rfl⟩ := listedChange_eq_some.mp hc
  exact Option.some_ne_none _

theorem WF.live_seen {inv : Inventory} (h : inv.WF) (now : Nanos) : (inv.live now).SeenKeyed := h.seen

theorem mem_live {now : Nanos} {inv : Inventory} {p : Pending} (h : p ∈ (inv.live now).pending) :
    p ∈ inv.pending := List.mem_of_mem_filter h

theorem pendingDigest_mem {inv : Inventory} {k : String} {d : Option String}
    (h : inv.pendingDigest k = some d) : ∃ p ∈ inv.pending, p.key = k ∧ p.digest = d := by
  obtain ⟨p, hp, hd⟩ := Option.map_eq_some_iff.mp h
  have hk := List.find?_some hp
  exact ⟨p, List.mem_reverse.mp (List.mem_of_find?_eq_some hp), beq_iff_eq.mp hk, hd⟩

theorem events_of_poll {X : Externs} {inv : Inventory} (hw : inv.WF) (hb : inv.baseline ≠ .silent)
    (now : Nanos) (listing : List ObjectEntry) :
    (inv.poll X now listing).2 = (inv.pollCore X now listing).2.map Emitted.event := by
  have hgap : inv.gap = false := by
    cases hg : inv.gap with
    | false => rfl
    | true => exact absurd (hw.gap hg) hb
  simp [poll, hgap]

theorem taken_of_emitted {X : Externs} {now : Nanos} {listing : List ObjectEntry}
    {inv : Inventory} {e : Emitted} (he : e ∈ (inv.pollCore X now listing).2) :
    e.change ∈ inv.taken X now listing := by
  rw [← (pollCore_compare X now listing (baseline_of_emitted he)).1]
  exact List.mem_map_of_mem he

theorem change_of_emitted {X : Externs} {now : Nanos} {listing : List ObjectEntry}
    {inv : Inventory} {e : Emitted} (he : e ∈ (inv.pollCore X now listing).2) :
    e.change ∈ (inv.live now).changes X (currentOf listing) :=
  List.mem_of_mem_take (taken_of_emitted he)

theorem spec_of_emitted {X : Externs} {now : Nanos} {listing : List ObjectEntry}
    {inv : Inventory} (hw : inv.WF) {e : Emitted} (he : e ∈ (inv.pollCore X now listing).2) :
    let target := (digestsOf X (currentOf listing))[e.change.entry.key]?
    e.change.digest = target ∧ inv.confirmed[e.change.entry.key]? ≠ target ∧
      (inv.live now).pendingDigest e.change.entry.key ≠ some target ∧
      e.change.op = opOf inv.confirmed[e.change.entry.key]? target :=
  mem_changes (hw.live_seen now) (change_of_emitted he)

/-- With room for all changes, a key that differs and is not in flight is reported, a removed one when
removals are. -/
theorem exists_emitted_of_room {X : Externs} {now : Nanos} {listing : List ObjectEntry}
    {inv : Inventory} (hw : inv.WF) (hb : inv.baseline ≠ .silent) {k : String}
    (hroom : ((inv.live now).changes X (currentOf listing)).length ≤ (inv.live now).room)
    (hq : (digestsOf X (currentOf listing))[k]? = none → inv.quietRemovals = false)
    (hne : inv.confirmed[k]? ≠ (digestsOf X (currentOf listing))[k]?)
    (hp : (inv.live now).pendingDigest k ≠ some (digestsOf X (currentOf listing))[k]?) :
    ∃ e ∈ (inv.pollCore X now listing).2, e.change.entry.key = k := by
  obtain ⟨c, hc, hk⟩ := exists_change (hw.live_seen now) hq hne hp
  have hchanges := (pollCore_compare X now listing hb).1
  rw [taken, List.take_of_length_le hroom] at hchanges
  rw [← hchanges] at hc
  obtain ⟨e, he, rfl⟩ := List.mem_map.mp hc
  exact ⟨e, he, hk⟩

theorem seq_of_emitted {X : Externs} {now : Nanos} {listing : List ObjectEntry}
    {inv : Inventory} {e : Emitted} (he : e ∈ (inv.pollCore X now listing).2) :
    inv.nextSeq ≤ e.seq ∧ e.seq < (inv.pollCore X now listing).1.nextSeq := by
  obtain ⟨-, hs, hst, -⟩ := pollCore_compare X now listing (baseline_of_emitted he)
  have hm : e.seq ∈ List.range' inv.nextSeq (inv.taken X now listing).length :=
    hs ▸ List.mem_map_of_mem he
  rw [List.mem_range'_1] at hm
  rw [hst]
  exact hm

theorem keys_of_emitted (X : Externs) (now : Nanos) (listing : List ObjectEntry) {inv : Inventory}
    (hb : inv.baseline ≠ .silent) :
    ((inv.pollCore X now listing).2.map fun e => e.change.entry.key) =
      (inv.taken X now listing).map fun c => c.entry.key := by
  rw [← (pollCore_compare X now listing hb).1, List.map_map]
  rfl

theorem nodup_taken (X : Externs) (now : Nanos) (listing : List ObjectEntry) {inv : Inventory}
    (hw : inv.WF) : ((inv.taken X now listing).map fun c => c.entry.key).Nodup :=
  (nodup_changes (hw.live_seen now) listing).sublist ((List.take_sublist _ _).map _)

theorem nodup_emitted (X : Externs) (now : Nanos) (listing : List ObjectEntry) {inv : Inventory}
    (hw : inv.WF) (hb : inv.baseline ≠ .silent) :
    ((inv.pollCore X now listing).2.map fun e => e.change.entry.key).Nodup := by
  rw [keys_of_emitted X now listing hb]
  exact nodup_taken X now listing hw

/-- **A poll keeps the invariant.** -/
theorem wf_pollCore {X : Externs} {inv : Inventory} (h : inv.WF) (now : Nanos)
    (listing : List ObjectEntry) : (inv.pollCore X now listing).1.WF := by
  by_cases hb : inv.baseline = .silent
  · rw [pollCore_silent X now listing hb]
    have hp : (inv.live now).pending = [] := by
      simp [live, expire, h.silent hb]
    refine ⟨fun k e he => key_of_currentOf he, ?_, ?_, fun hs => ?_, fun hg => ?_, ?_⟩
    · change ((inv.live now).pending.map Pending.seq).Pairwise (· < ·)
      rw [hp]
      exact List.Pairwise.nil
    · intro p hm
      exact h.below p (mem_live hm)
    · cases hs
    · cases hg
    · intro hq p hm
      exact h.quiet hq p (mem_live hm)
  · obtain ⟨-, hseq, hst, -⟩ := pollCore_compare X now listing hb
    refine ⟨?_, ?_, fun p hp => ?_, fun hs => ?_, fun hg => ?_, fun hq p hp => ?_⟩
    · rw [hst]
      exact fun k e he => seenKeyed_insertAll
        (seenKeyed_forget (h.live_seen now) (currentOf listing)) k e he
    · rw [hst]
      simp only [List.map_append, List.map_map]
      rw [List.pairwise_append]
      refine ⟨(h.sorted.sublist (List.filter_sublist.map _)), ?_, ?_⟩
      · change ((inv.pollCore X now listing).2.map Emitted.seq).Pairwise (· < ·)
        rw [hseq]
        exact List.pairwise_lt_range'
      · intro a ha b hb'
        obtain ⟨p, hp, rfl⟩ := List.mem_map.mp ha
        obtain ⟨e, he, rfl⟩ := List.mem_map.mp hb'
        exact lt_of_lt_of_le (h.below p (mem_live hp)) (seq_of_emitted he).1
    · rcases mem_pending_pollCore.mp hp with hp | ⟨e, he, rfl⟩
      · refine lt_of_lt_of_le (h.below p (mem_live hp)) ?_
        rw [hst]
        exact Nat.le_add_right _ _
      · exact (seq_of_emitted he).2
    · rw [hst] at hs
      cases hs
    · rw [hst] at hg
      cases hg
    · rw [hst] at hq
      have hq' : (inv.live now).quietRemovals = true := hq
      rcases mem_pending_pollCore.mp hp with hp | ⟨e, he, rfl⟩
      · exact h.quiet hq' p (mem_live hp)
      · exact digest_of_quiet hq' (change_of_emitted he)

/-- **An acknowledgement keeps the invariant.** -/
theorem wf_acknowledged {inv : Inventory} (h : inv.WF) (position : Json) :
    (inv.acknowledged position).WF := by
  cases ha : inv.acknowledges position with
  | none => rwa [acknowledged_of_none ha]
  | some p =>
    rw [acknowledged_of_some ha]
    refine ⟨fun k e he => ?_, ?_, fun q hq => ?_, fun hs => ?_, h.gap, fun hq q hm => ?_⟩
    · dsimp only at he
      split_ifs at he
      · rw [getElem?_erase_ite] at he
        split_ifs at he
        exact h.seen k e he
      · exact h.seen k e he
    · exact h.sorted.sublist (List.filter_sublist.map _)
    · exact h.below q (List.mem_of_mem_filter hq)
    · dsimp only
      rw [h.silent hs]
      rfl
    · exact h.quiet hq q (List.mem_of_mem_filter hm)

/-! ## What never changes -/

theorem pollCore_options (X : Externs) (now : Nanos) (listing : List ObjectEntry)
    (inv : Inventory) : (inv.pollCore X now listing).1.options = inv.options ∧
      (inv.pollCore X now listing).1.quietRemovals = inv.quietRemovals := by
  by_cases hb : inv.baseline = .silent
  · rw [pollCore_silent X now listing hb]
    exact ⟨rfl, rfl⟩
  · rw [(pollCore_compare X now listing hb).2.2.1]
    exact ⟨rfl, rfl⟩

theorem acknowledged_baseline (inv : Inventory) (position : Json) :
    (inv.acknowledged position).baseline = inv.baseline := by
  cases ha : inv.acknowledges position with
  | none => rw [acknowledged_of_none ha]
  | some p => rw [acknowledged_of_some ha]

theorem acknowledged_options (inv : Inventory) (position : Json) :
    (inv.acknowledged position).options = inv.options ∧
      (inv.acknowledged position).quietRemovals = inv.quietRemovals := by
  cases ha : inv.acknowledges position with
  | none => rw [acknowledged_of_none ha]; exact ⟨rfl, rfl⟩
  | some p => rw [acknowledged_of_some ha]; exact ⟨rfl, rfl⟩

end Inventory

end McpgSdk
