import McpgSdk.Inventory.Attended
import McpgSdk.Inventory.Stable

/-!
# A watch catches up with its store

Put together, the thread, its channel, the window and the host do what a watch is for: once a store
holds still, and its changes are listed and acknowledged in time, the host has all of it.

* `Told`, `told`: in the end every change in the window leads to the store;
* `toGo_step`, `shrinks`: no key is added to those still to go, and as long as there is one some key is
  settled;
* **`catches_up`**: in the end the confirmed listing is the store's, nothing is in flight, and nothing
  more is emitted.
-/

set_option autoImplicit false

namespace McpgSdk

open OrdMap

namespace Watch

/-! ## The keys still to go -/

/-- The keys on which the confirmed listing is not the store's. -/
def toGo (store : Digests) (w : Watch) : Finset String := disagree w.inv.confirmed store

/-- A baseline is set, and every change in the window leads to the store. -/
structure Told (store : Digests) (w : Watch) : Prop where
  baseline : w.inv.baseline ≠ .silent
  window : ∀ p ∈ w.inv.pending, p.digest = store[p.key]?

theorem baseline_pollCore {X : Externs} (now : Nanos) (listing : List ObjectEntry) (inv : Inventory) :
    (inv.pollCore X now listing).1.baseline ≠ .silent := by
  by_cases hb : inv.baseline = .silent
  · rw [Inventory.pollCore_silent X now listing hb]
    simp [Inventory.setBaseline]
  · rw [(Inventory.pollCore_compare X now listing hb).2.2.1]
    simp

namespace Attended

section

variable {X : Externs} {store : Digests} {since : ℕ} {r : Execution (Steps X)}

/-- In the end every change in the window leads to the store. -/
theorem told (h : Attended X store since r) :
    ∃ n, since ≤ n ∧ ∀ m, n ≤ m → (r.state m).Told store := by
  obtain ⟨n, hn, hbased⟩ : ∃ n, since ≤ n ∧ (r.state n).inv.baseline ≠ .silent := by
    by_contra hnone
    have hsilent : ∀ m, since ≤ m → (r.state m).inv.baseline = .silent :=
      fun m hm => by_contra fun hb => hnone ⟨m, hm, hb⟩
    obtain ⟨k, listing, hk, hact⟩ := h.relists fun m hm => (h.wf m).1.silent (hsilent m hm)
    refine absurd (hsilent (k + 1) (Nat.le_succ_of_le hk)) ?_
    rw [(h.polls hact).1]
    exact baseline_pollCore _ _ _
  have hlead : ∀ m, n ≤ m → ∀ p ∈ (r.state m).inv.pending, (r.state n).inv.nextSeq ≤ p.seq →
      p.digest = store[p.key]? := by
    intro m hm
    induction m, hm using Nat.le_induction with
    | base => exact fun p hp hseq => absurd ((h.wf n).1.below p hp) (Nat.not_lt.mpr hseq)
    | succ m hm ih =>
      intro p hp hseq
      rcases came (h.wf m).1 (h.wf m).2 (r.next m) hp with hp | ⟨listing, hact, hdigest, -⟩
      · exact ih p hp hseq
      · rw [hdigest, h.still m listing (hn.trans hm) hact]
  obtain ⟨m, hm, hcleared⟩ := h.cleared n
  refine ⟨m, hn.trans hm, fun k hk => ⟨?_, fun p hp => ?_⟩⟩
  · exact (since_of_le (hm.trans hk)).2.baseline hbased
  · exact hlead k (hm.trans hk) p hp (hcleared k hk p hp)

/-- What a step does to the keys still to go: it adds none, and a change leaves the window only with
a key that is settled. -/
theorem toGo_step (h : Attended X store since r) {n : ℕ} (hn : since ≤ n)
    (ht : (r.state n).Told store) : (r.state (n + 1)).toGo store ⊆ (r.state n).toGo store ∧
      ∀ p ∈ (r.state n).inv.pending, p ∉ (r.state (n + 1)).inv.pending →
        ∃ q ∈ (r.state n).inv.pending, q.key ∉ (r.state (n + 1)).toGo store := by
  have hsame : (r.state (n + 1)).inv = (r.state n).inv →
      (r.state (n + 1)).toGo store ⊆ (r.state n).toGo store ∧
      ∀ p ∈ (r.state n).inv.pending, p ∉ (r.state (n + 1)).inv.pending →
        ∃ q ∈ (r.state n).inv.pending, q.key ∉ (r.state (n + 1)).toGo store := by
    intro hinv
    rw [toGo, toGo, hinv]
    exact ⟨Finset.Subset.refl _, fun p hp hgone => absurd hp hgone⟩
  rcases inv_cases (h.wf n).2 (r.next n) with ⟨hinv, -⟩ | ⟨position, hinv, -⟩ | ⟨listing, hact, hinv, -⟩
  · exact hsame hinv
  · cases ha : (r.state n).inv.acknowledges position with
    | none => exact hsame (by rw [hinv, Inventory.acknowledged_of_none ha])
    | some q =>
      have hq := (Inventory.acknowledges_eq_some ha).2
      have hconfirmed : (r.state (n + 1)).inv.confirmed =
          patch (r.state n).inv.confirmed q.key q.digest := by
        rw [hinv, Inventory.acknowledged_of_some ha]
      refine ⟨fun k hk => ?_, fun p _ _ => ⟨q, hq, fun hk => ?_⟩⟩
      · rw [toGo, mem_disagree, hconfirmed, getElem?_patch] at hk
        rw [toGo, mem_disagree]
        split_ifs at hk with hkey
        · exact absurd (hkey ▸ ht.window q hq) hk
        · exact hk
      · rw [toGo, mem_disagree, hconfirmed, getElem?_patch, if_pos rfl] at hk
        exact hk (ht.window q hq)
  · refine ⟨?_, fun p hp hgone => absurd ?_ hgone⟩
    · rw [toGo, toGo, hinv, History.confirmed_of_reported (h.wf n).1 (h.reports n) ht.baseline]
    · rw [hinv]
      exact Inventory.mem_pending_pollCore.mpr
        (.inl (List.mem_filter.mpr ⟨hp, decide_eq_true (h.prompt n listing hn hact p hp)⟩))

theorem toGo_of_le (h : Attended X store since r) {n : ℕ} (hn : since ≤ n)
    (ht : ∀ m, n ≤ m → (r.state m).Told store) {m k : ℕ} (hm : n ≤ m) (hk : m ≤ k) :
    (r.state k).toGo store ⊆ (r.state m).toGo store := by
  induction k, hk using Nat.le_induction with
  | base => exact Finset.Subset.refl _
  | succ k hk ih =>
    exact (h.toGo_step (hn.trans (hm.trans hk)) (ht k (hm.trans hk))).1.trans ih

theorem key_of_put (h : Attended X store since r) {n : ℕ} (hn : since ≤ n) {p : Pending}
    (hp : p ∈ (r.state (n + 1)).inv.pending) (hnot : p ∉ (r.state n).inv.pending) :
    p.key ∈ (r.state n).toGo store := by
  obtain ⟨listing, hact, -, hne⟩ := (came (h.wf n).1 (h.wf n).2 (r.next n) hp).resolve_left hnot
  rw [h.still n listing hn hact] at hne
  exact mem_disagree.mpr hne

/-- **A key is settled**, as long as there is one to go. -/
theorem shrinks (h : Attended X store since r) {n : ℕ} (hn : since ≤ n)
    (ht : ∀ m, n ≤ m → (r.state m).Told store) (hne : ((r.state n).toGo store).Nonempty) :
    ∃ m, n ≤ m ∧ ((r.state m).toGo store).card < ((r.state n).toGo store).card := by
  by_contra hnone
  -- the keys to go stay the same for ever
  have hsame : ∀ m, n ≤ m → (r.state m).toGo store = (r.state n).toGo store := fun m hm =>
    Finset.eq_of_subset_of_card_le (h.toGo_of_le hn ht (le_refl n) hm)
      (Nat.le_of_not_lt fun hlt => hnone ⟨m, hm, hlt⟩)
  -- so every change put in the window from now on is of one of them
  have hkeys : ∀ m, n ≤ m → ∀ p ∈ (r.state m).inv.pending, (r.state n).inv.nextSeq ≤ p.seq →
      p.key ∈ (r.state n).toGo store := by
    intro m hm
    induction m, hm using Nat.le_induction with
    | base => exact fun p hp hseq => absurd ((h.wf n).1.below p hp) (Nat.not_lt.mpr hseq)
    | succ m hm ih =>
      intro p hp hseq
      by_cases hold : p ∈ (r.state m).inv.pending
      · exact ih p hold hseq
      · rw [← hsame m hm]
        exact h.key_of_put (hn.trans hm) hp hold
  -- none of them is settled, so once the old changes are gone the window is empty
  obtain ⟨m, hm, hcleared⟩ := h.cleared n
  have hempty : ∀ k, m ≤ k → (r.state k).inv.pending = [] := by
    intro k hk
    refine List.eq_nil_iff_forall_not_mem.mpr fun p hp => ?_
    obtain ⟨j, hj, hgone⟩ := h.leaves hp
    refine hgone ?_
    clear hgone
    induction j, hj using Nat.le_induction with
    | base => exact hp
    | succ j hj ih =>
      by_contra hgone
      have hnj : n ≤ j := hm.trans (hk.trans hj)
      obtain ⟨q, hq, hsettled⟩ := (h.toGo_step (hn.trans hnj) (ht j hnj)).2 p ih hgone
      rw [hsame (j + 1) (Nat.le_succ_of_le hnj)] at hsettled
      exact hsettled (hkeys j hnj q hq (hcleared j (hk.trans hj) q hq))
  -- but then the store is listed again, and what is to go is reported
  obtain ⟨k, listing, hk, hact⟩ := h.relists hempty
  have hnk : n ≤ k := hm.trans hk
  have hquiescent : (r.state k).inv.Quiescent :=
    ⟨(h.wf k).1, (ht k hnk).baseline, hempty k hk, h.reports k⟩
  have hlength := (Inventory.poll_exact (X := X) hquiescent (r.state k).clock listing).1
  have hpending := hempty (k + 1) (Nat.le_succ_of_le hk)
  rw [(h.polls hact).1, Inventory.pending_pollCore, List.append_eq_nil_iff,
    List.map_eq_nil_iff] at hpending
  rw [hpending.2, h.still k listing (hn.trans hnk) hact] at hlength
  have hcard : 0 < ((r.state k).toGo store).card := by
    rw [hsame k hnk]
    exact hne.card_pos
  have hwindow := h.one_le_window k
  simp only [toGo, List.length_nil] at hcard hlength
  omega

theorem confirmed_of_told (h : Attended X store since r) {n : ℕ} (hn : since ≤ n)
    (ht : ∀ m, n ≤ m → (r.state m).Told store) :
    ∃ m, n ≤ m ∧ (r.state m).inv.confirmed = store := by
  induction hc : ((r.state n).toGo store).card using Nat.strong_induction_on generalizing n with
  | _ c ih =>
    rcases Finset.eq_empty_or_nonempty ((r.state n).toGo store) with hnil | hne
    · exact ⟨n, le_refl n, disagree_eq_empty.mp hnil⟩
    · obtain ⟨m, hm, hlt⟩ := h.shrinks hn ht hne
      obtain ⟨k, hk, hconfirmed⟩ := ih _ (hc ▸ hlt) (hn.trans hm) (fun k hk => ht k (hm.trans hk)) rfl
      exact ⟨k, hm.trans hk, hconfirmed⟩

/-- **A watch catches up with its store.** In every fair execution of an event source's watch that
reports removals, in which `Instant` can hold every deadline the thread sets, the store holds still from
some time on, answers, and answers before what is in flight expires, every change that is reported is
acknowledged or dropped, and nothing is sent for ever when nothing is reported: in the end the confirmed
listing is the store's and stays so, nothing is in flight, and nothing more is emitted. -/
theorem catches_up (h : Attended X store since r) :
    ∃ n, ∀ m, n ≤ m → (r.state m).inv.confirmed = store ∧ (r.state m).inv.pending = [] ∧
      (r.state m).emitted = (r.state n).emitted := by
  obtain ⟨n, hn, ht⟩ := h.told
  obtain ⟨m, hm, hconfirmed⟩ := h.confirmed_of_told hn ht
  have hstays : ∀ k, m ≤ k → (r.state k).toGo store = ∅ := fun k hk =>
    Finset.subset_empty.mp (disagree_eq_empty.mpr hconfirmed ▸ h.toGo_of_le hn ht hm hk)
  -- nothing is put in the window any more
  have hold : ∀ k, m ≤ k → ∀ p ∈ (r.state k).inv.pending, p.seq < (r.state m).inv.nextSeq := by
    intro k hk
    induction k, hk using Nat.le_induction with
    | base => exact (h.wf m).1.below
    | succ k hk ih =>
      intro p hp
      by_cases hpk : p ∈ (r.state k).inv.pending
      · exact ih p hpk
      · have hkey := h.key_of_put (hn.trans (hm.trans hk)) hp hpk
        rw [hstays k hk] at hkey
        exact absurd hkey (Finset.notMem_empty _)
  have hquiet : ∀ k, m ≤ k → (r.state (k + 1)).emitted = (r.state k).emitted := by
    intro k hk
    have hnk : n ≤ k := hm.trans hk
    rcases inv_cases (h.wf k).2 (r.next k) with
      ⟨-, hsame⟩ | ⟨-, -, hsame⟩ | ⟨listing, hact, -, hemitted⟩
    · exact hsame
    · exact hsame
    · have hnone : ((r.state k).inv.pollCore X (r.state k).clock listing).2 = [] := by
        refine List.eq_nil_iff_forall_not_mem.mpr fun e he => ?_
        obtain ⟨-, hne, -⟩ := Inventory.spec_of_emitted (h.wf k).1 he
        refine hne ?_
        rw [disagree_eq_empty.mp (hstays k hk), ← h.still k listing (hn.trans hnk) hact]
        rfl
      rw [hemitted, Inventory.events_of_poll (h.wf k).1 (ht k hnk).baseline, hnone]
      exact List.append_nil _
  obtain ⟨j, hj, hcleared⟩ := h.cleared m
  refine ⟨j, fun k hk => ⟨disagree_eq_empty.mp (hstays k (hj.trans hk)), ?_, ?_⟩⟩
  · refine List.eq_nil_iff_forall_not_mem.mpr fun p hp => ?_
    exact absurd (hold k (hj.trans hk) p hp) (Nat.not_lt.mpr (hcleared k hk p hp))
  · induction k, hk using Nat.le_induction with
    | base => rfl
    | succ k hk ih => exact (hquiet k (hj.trans hk)).trans ih

end

end Attended

/-! ## An attended watch -/

/-- The store of one object. -/
def oneObject : List ObjectEntry := [{ key := "a" }]

/-- What happens once the watch has caught up: the store is listed, the interval passes, and again. -/
def idleAct (w : Watch) : WatchAct :=
  match w.pc with
  | .listing => .listed (.ok oneObject)
  | .waiting deadline => if deadline ≤ w.clock then .run else .tick (deadline - w.clock)
  | _ => .run

def idleNext (w : Watch) : Watch := (w.step plainExterns (idleAct w)).getD w

/-- A watch that has caught up with the store of one object. -/
structure Idle (w : Watch) : Prop where
  stop : w.stop = false
  source : w.eventSource = true
  wakes : w.wakes = []
  quiescent : w.inv.Quiescent
  confirmed : w.inv.confirmed = Inventory.target plainExterns oneObject
  window : 1 ≤ w.inv.options.maxInFlight
  interval : w.inv.options.interval = minInterval
  pc : w.pc = .top ∨ w.pc = .checked ∨ w.pc = .listing ∨ w.pc = .arming ∨
    ∃ deadline, w.pc = .waiting deadline

section Idle

variable {w : Watch}

theorem idle_poll {inv : Inventory} (hq : inv.Quiescent)
    (hc : inv.confirmed = Inventory.target plainExterns oneObject) (now : Nanos) :
    let inv' := (inv.pollCore plainExterns now oneObject).1
    inv'.Quiescent ∧ inv'.confirmed = inv.confirmed ∧ inv'.options = inv.options := by
  intro inv'
  have hnone : (inv.pollCore plainExterns now oneObject).2 = [] := by
    refine List.eq_nil_of_length_eq_zero ?_
    rw [(Inventory.poll_exact hq now oneObject).1, disagree_eq_empty.mpr hc]
    simp
  obtain ⟨hoptions, hquiet⟩ := Inventory.pollCore_options plainExterns now oneObject inv
  refine ⟨⟨Inventory.wf_pollCore hq.wf now oneObject, baseline_pollCore _ _ _, ?_,
    hquiet.trans hq.reported⟩, ?_, hoptions⟩
  swap
  · exact History.confirmed_of_reported hq.wf hq.reported hq.baseline _ _
  rw [Inventory.pending_pollCore, hnone, Inventory.live_pending_nil hq.pending]
  rfl

theorem holds_plainExterns (t : Nanos) : instantHolds plainExterns.lastInstant t = true := rfl

/-- Where the thread stands next, and when. -/
def idleTurn (interval : Nanos) : WatchPc × Nanos → WatchPc × Nanos
  | (.top, now) => (.checked, now)
  | (.checked, now) => (.listing, now)
  | (.listing, now) => (.arming, now)
  | (.arming, now) => (.waiting (now + interval), now)
  | (.waiting deadline, now) => if deadline ≤ now then (.top, now) else (.waiting deadline, deadline)
  | (pc, now) => (pc, now)

theorem idle_step (h : w.Idle) : w.step plainExterns (idleAct w) = some (idleNext w) ∧
    (idleNext w).Idle ∧
      ((idleNext w).pc, (idleNext w).clock) = idleTurn minInterval (w.pc, w.clock) := by
  have hroom : w.inv.hasRoom = true := by
    rw [Inventory.hasRoom, h.quiescent.pending]
    exact decide_eq_true h.window
  suffices hnext : ∃ w', w.step plainExterns (idleAct w) = some w' ∧ w'.Idle ∧
      (w'.pc, w'.clock) = idleTurn minInterval (w.pc, w.clock) by
    obtain ⟨w', hs, hidle⟩ := hnext
    rw [idleNext, hs]
    exact ⟨rfl, hidle⟩
  rcases h.pc with hpc | hpc | hpc | hpc | ⟨deadline, hpc⟩
  · refine ⟨{ w with pc := .checked }, ?_, ?_⟩
    · simp [idleAct, step, next, hpc, h.stop]
    · exact ⟨{ h with pc := .inr (.inl rfl) }, by rw [hpc]; rfl⟩
  · refine ⟨{ w with pc := .listing, listings := w.listings + 1 }, ?_, ?_⟩
    · simp [idleAct, step, next, hpc, hroom]
    · exact ⟨{ h with pc := .inr (.inr (.inl rfl)) }, by rw [hpc]; rfl⟩
  · obtain ⟨hquiescent, hconfirmed, hoptions⟩ := idle_poll h.quiescent h.confirmed w.clock
    refine ⟨{ w.polled plainExterns oneObject with pc := .arming }, ?_, ?_⟩
    · simp [idleAct, step, hpc]
    · simp only [polled, h.source, if_true]
      exact ⟨⟨h.stop, rfl, h.wakes, hquiescent, hconfirmed.trans h.confirmed, hoptions ▸ h.window,
        hoptions ▸ h.interval, .inr (.inr (.inr (.inl rfl)))⟩, by rw [hpc]; rfl⟩
  · refine ⟨{ w with pc := .waiting (w.clock + w.inv.options.interval) }, ?_, ?_⟩
    · simp [idleAct, step, next, hpc, holds_plainExterns]
    · exact ⟨{ h with pc := .inr (.inr (.inr (.inr ⟨_, rfl⟩))) }, by rw [hpc, h.interval]; rfl⟩
  · by_cases htime : deadline ≤ w.clock
    · refine ⟨{ w with pc := .top }, ?_, ?_⟩
      · simp [idleAct, step, next, hpc, htime, h.wakes]
      · exact ⟨{ h with pc := .inl rfl }, by rw [hpc]; exact (if_pos htime).symm⟩
    · refine ⟨{ w with clock := w.clock + (deadline - w.clock) }, ?_, ?_⟩
      · simp [idleAct, step, hpc, htime]
      · refine ⟨{ h with pc := .inr (.inr (.inr (.inr ⟨deadline, hpc⟩))) }, ?_⟩
        rw [hpc, idleTurn, if_neg htime, Nat.add_sub_cancel' (Nat.le_of_not_le htime)]

theorem idle_iterate (h : w.Idle) (k : ℕ) : (idleNext^[k] w).Idle ∧
    ((idleNext^[k] w).pc, (idleNext^[k] w).clock) = (idleTurn minInterval)^[k] (w.pc, w.clock) := by
  induction k with
  | zero => exact ⟨h, rfl⟩
  | succ k ih =>
    rw [Function.iterate_succ_apply', Function.iterate_succ_apply', ← ih.2]
    exact (idle_step ih.1).2

theorem idle_round {interval : Nanos} (h : 0 < interval) (now : Nanos) :
    (idleTurn interval)^[6] (.top, now) = (.top, now + interval) := by
  have hlate : ¬ now + interval ≤ now := Nat.not_le.mpr (Nat.lt_add_of_pos_right h)
  simp only [Function.iterate_succ_apply, Function.iterate_zero, id, idleTurn, hlate, if_false,
    le_refl, if_true]

/-- The thread gets to the head of its loop as often and as late as one likes. -/
theorem idle_rounds (h : w.Idle) (hpc : w.pc = .top) (n : ℕ) :
    ∃ k, n ≤ k ∧ (idleNext^[k] w).pc = .top ∧ n ≤ (idleNext^[k] w).clock := by
  induction n with
  | zero => exact ⟨0, Nat.zero_le _, hpc, Nat.zero_le _⟩
  | succ n ih =>
    obtain ⟨k, hk, htop, hclock⟩ := ih
    -- look at the flag, list, poll, arm, wait for the interval, and back
    have hround := (idle_iterate (idle_iterate h k).1 6).2
    rw [← Function.iterate_add_apply, htop] at hround
    have hinterval : 1 ≤ minInterval := by decide
    rw [idle_round hinterval, Prod.mk.injEq] at hround
    refine ⟨6 + k, by omega, hround.1, ?_⟩
    rw [hround.2]
    exact Nat.add_le_add hclock hinterval

theorem idleAct_cases (w : Watch) :
    idleAct w = .run ∨ idleAct w = .listed (.ok oneObject) ∨ ∃ d, idleAct w = .tick d := by
  unfold idleAct
  split
  · exact .inr (.inl rfl)
  · split_ifs
    · exact .inl rfl
    · exact .inr (.inr ⟨_, rfl⟩)
  · exact .inl rfl

end Idle

/-- An object appears after the baseline, is reported and acknowledged. -/
def ackedObject : List WatchAct := ackedOnce.take 15

theorem ackedObject_states : ∀ n < 15, ∃ w,
    (ackedObject.take n).foldlM (step plainExterns) (plainWatch 2) = some w ∧ w.stop = false ∧
      ∀ p ∈ w.inv.pending, p.seq = 0 := by
  have hcheck : ∀ n < 15, (((ackedObject.take n).foldlM (step plainExterns) (plainWatch 2)).any
      fun w => decide (w.stop = false ∧ ∀ p ∈ w.inv.pending, p.seq = 0)) = true := by decide +kernel
  exact fun n hn => end_of_run (hcheck n hn)

/-- An execution in which that happens, and nothing after it. -/
structure Rests (r : Execution (Steps plainExterns)) : Prop where
  begins : ∀ n w, n ≤ 15 →
    (ackedObject.take n).foldlM (step plainExterns) (plainWatch 2) = some w → r.state n = w
  acts : ∀ n, (hn : n < 15) → r.act n = ackedObject[n]
  idle : ∀ n, 15 ≤ n → (r.state n).Idle ∧ r.act n = idleAct (r.state n)
  rounds : ∀ n, ∃ m, n ≤ m ∧ 15 ≤ m ∧ (r.state m).pc = .top ∧ n ≤ (r.state m).clock

theorem spawned_plainWatch : Spawned plainExterns (plainWatch 2) :=
  ⟨{ Inventory.plainOptions with maxInFlight := 2 }, none, {}, 0, rfl⟩

theorem exists_rests : ∃ r, Rests r := by
  obtain ⟨t, hrun, hstop, hsource, hwakes, hpending, hbaseline, hquiet, hcard, hoptions, hinterval,
    hpc⟩ := end_of_run (r := ackedObject.foldlM (step plainExterns) (plainWatch 2))
      (P := fun w => w.stop = false ∧ w.eventSource = true ∧ w.wakes.length = 0 ∧
        w.inv.pending = [] ∧ w.inv.baseline ≠ .silent ∧ w.inv.quietRemovals = false ∧
        (disagree w.inv.confirmed (Inventory.target plainExterns oneObject)).card = 0 ∧
        1 ≤ w.inv.options.maxInFlight ∧ w.inv.options.interval = minInterval ∧ w.pc = .top)
      (by decide +kernel)
  have hwf : t.inv.WF := (wf_of_reach spawned_plainWatch (reach_run hrun)).1
  have hidle : t.Idle := ⟨hstop, hsource, List.eq_nil_of_length_eq_zero hwakes,
    ⟨hwf, hbaseline, hpending, hquiet⟩, disagree_eq_empty.mp (Finset.card_eq_zero.mp hcard), hoptions,
    hinterval, .inl hpc⟩
  obtain ⟨r, hbegins, hacts, hlater⟩ := exists_execution idleAct (g := idleNext) (K := Idle)
    (fun u hu => ⟨(idle_step hu).1, (idle_step hu).2.1⟩) hrun hidle
  refine ⟨r, hbegins, hacts, fun n hn => ?_, fun n => ?_⟩
  · obtain ⟨k, rfl⟩ := Nat.exists_eq_add_of_le hn
    obtain ⟨hstate, hact, hk⟩ := hlater k
    exact ⟨hstate ▸ hk, hstate ▸ hact⟩
  · obtain ⟨k, hk, htop, hclock⟩ := idle_rounds hidle hpc n
    refine ⟨15 + k, by omega, by omega, ?_⟩
    rw [show r.state (15 + k) = _ from (hlater k).1]
    exact ⟨htop, hclock⟩

namespace Rests

variable {r : Execution (Steps plainExterns)}

theorem turn (h : Rests r) {n : ℕ} (hn : 15 ≤ n) :
    ((r.state (n + 1)).pc, (r.state (n + 1)).clock) =
      idleTurn minInterval ((r.state n).pc, (r.state n).clock) := by
  obtain ⟨hidle, hact⟩ := h.idle n hn
  obtain ⟨hstep, -, hturn⟩ := idle_step hidle
  have hs := r.next n
  rw [hact] at hs
  rw [← Option.some.inj (hstep.symm.trans hs)]
  exact hturn

theorem lists (h : Rests r) (n : ℕ) : ∃ m, n ≤ m ∧ r.act m = .listed (.ok oneObject) := by
  obtain ⟨m, hm, hge, htop, -⟩ := h.rounds n
  have hchecked : (r.state (m + 1)).pc = .checked := by
    have hturn := h.turn hge
    rw [htop] at hturn
    exact (Prod.mk.inj hturn).1
  have hlisting : (r.state (m + 2)).pc = .listing := by
    have hturn := h.turn (show 15 ≤ m + 1 by omega)
    rw [hchecked] at hturn
    exact (Prod.mk.inj hturn).1
  refine ⟨m + 2, by omega, ?_⟩
  rw [(h.idle (m + 2) (by omega)).2, idleAct, hlisting]

theorem running (h : Rests r) (n : ℕ) : (r.state n).stop = false := by
  rcases Nat.lt_or_ge n 15 with hlt | hge
  · obtain ⟨w, hw, hstop, -⟩ := ackedObject_states n hlt
    rw [h.begins n w hlt.le hw]
    exact hstop
  · exact (h.idle n hge).1.stop

theorem fair (h : Rests r) (p : Process) : r.Fair p.owns := by
  cases p with
  | thread =>
    intro n _
    obtain ⟨m, hm, hge, htop, -⟩ := h.rounds n
    refine ⟨m, hm, ?_⟩
    rw [(h.idle m hge).2, idleAct, htop]
    trivial
  | store =>
    intro n _
    obtain ⟨m, hm, hact⟩ := h.lists n
    exact ⟨m, hm, by rw [hact]; trivial⟩
  | canceller =>
    refine Execution.fair_of_disabled fun n => ⟨n, le_refl n, ?_⟩
    rintro ⟨a, w, ha, hs⟩
    cases a with
    | sendStop => simp [Steps, step, h.running n] at hs
    | run | listed | ack | wake | cancel | tick => exact ha

/-- A change is put in the window by the second listing only, and acknowledged right after it. -/
theorem acked (h : Rests r) {n : ℕ} {p : Pending} (hp : p ∈ (r.state (n + 1)).inv.pending)
    (hnot : p ∉ (r.state n).inv.pending) : ∃ k position, n < k ∧ r.act k = .ack position ∧
      Inventory.positionSeq position = some p.seq := by
  have hn : n + 1 < 15 := by
    by_contra hge
    rw [(h.idle (n + 1) (Nat.le_of_not_lt hge)).1.quiescent.pending] at hp
    cases hp
  have h₀ : r.state 0 = plainWatch 2 := h.begins 0 _ (Nat.zero_le _) rfl
  have hreach : Reach (Steps plainExterns) anyStep (plainWatch 2) (r.state n) :=
    Execution.reach (h₀ ▸ .refl) n
  obtain ⟨hwf, hsource⟩ := wf_of_reach spawned_plainWatch hreach
  obtain ⟨listing, hact, -⟩ := (came hwf hsource (r.next n) hp).resolve_left hnot
  obtain ⟨w, hw, -, hseq⟩ := ackedObject_states (n + 1) hn
  rw [h.begins (n + 1) w hn.le hw] at hp
  refine ⟨9, Cursor.toValue ⟨1, 0, none⟩, ?_, h.acts 9 (by decide), by simp [hseq p hp]⟩
  by_contra hge
  rw [h.acts n (by omega)] at hact
  have hlow : 9 ≤ n := Nat.le_of_not_lt hge
  have hhigh : n ≤ 13 := by omega
  interval_cases n <;> cases hact

theorem attended (h : Rests r) :
    Attended plainExterns (Inventory.target plainExterns oneObject) 15 r where
  spawned := (h.begins 0 _ (Nat.zero_le _) rfl).symm ▸ spawned_plainWatch
  reported := (h.begins 0 _ (Nat.zero_le _) rfl).symm ▸ rfl
  running := h.running
  fits _ _ := holds_plainExterns _
  fair := h.fair
  clock n := by
    obtain ⟨m, -, -, -, hclock⟩ := h.rounds n
    exact ⟨m, hclock⟩
  still n listing hn hact := by
    rw [(h.idle n hn).2] at hact
    rcases idleAct_cases (r.state n) with h | h | ⟨d, h⟩ <;> rw [h] at hact <;> cases hact
    rfl
  answers n _ := by
    obtain ⟨m, hm, hact⟩ := h.lists n
    exact ⟨m, oneObject, hm, hact⟩
  prompt n listing hn _ p hp := by
    rw [(h.idle n hn).1.quiescent.pending] at hp
    cases hp
  acked n p hp hnot := .inl (h.acked hp hnot)
  silent n _ := by
    refine ⟨15, fun m hm => ?_⟩
    rw [(h.idle m hm).2]
    rcases idleAct_cases (r.state m) with h | h | ⟨d, h⟩ <;> rw [h] <;> exact id

end Rests

theorem catches_up_ackedObject : ∃ (r : Execution (Steps plainExterns)) (n : ℕ),
    (r.state 9).inv.inFlight = 1 ∧ ∀ m, n ≤ m →
      (r.state m).inv.confirmed = Inventory.target plainExterns oneObject ∧
      (r.state m).inv.pending = [] := by
  obtain ⟨r, hr⟩ := exists_rests
  obtain ⟨n, hn⟩ := hr.attended.catches_up
  obtain ⟨w, hw, hone⟩ := end_of_run
    (r := (ackedObject.take 9).foldlM (step plainExterns) (plainWatch 2))
    (P := fun w => w.inv.inFlight = 1) (by decide +kernel)
  refine ⟨r, n, ?_, fun m hm => ⟨(hn m hm).1, (hn m hm).2.1⟩⟩
  rw [hr.begins 9 w (by decide) hw]
  exact hone

end Watch

end McpgSdk
