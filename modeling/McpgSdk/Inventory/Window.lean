import McpgSdk.Inventory.History

/-!
# The window of changes in flight

A poll appends to the window, expiry drops what waited too long, and an acknowledgement drops one
change and every earlier one. Since sequence numbers grow, and emission times do not shrink, both kinds
of removal drop a prefix.

* `filter_suffix`: filtering an ordered list by a property that stays true drops a prefix;
* `Clocked`: a run with a clock that never goes back, read once a poll;
* `Ordered`: the invariant, kept by every step (`ordered_poll`, `ordered_ack`);
* **`pending_window`**: the window is ordered, bounded, and holds no change twice in a row.
-/

set_option autoImplicit false

namespace McpgSdk

/-- Filtering by a property that, once true, stays true drops a prefix. -/
theorem filter_suffix {α : Type} {p : α → Bool} {l : List α}
    (h : l.Pairwise fun a b => p a = true → p b = true) : l.filter p <:+ l := by
  induction h with
  | nil => exact List.suffix_rfl
  | @cons a l ha _ ih =>
    by_cases hp : p a = true
    · have hall : (a :: l).filter p = a :: l := by
        apply List.filter_eq_self.mpr
        intro b hb
        rcases List.mem_cons.mp hb with rfl | hb
        · exact hp
        · exact ha b hb hp
      rw [hall]
    · rw [List.filter_cons_of_neg hp]
      exact ih.trans (List.suffix_cons a l)

/-- Of two changes of one key with no other change of it between them, the targets differ. -/
def NoRepeat (window : List Pending) : Prop :=
  ∀ (before between after : List Pending) (p q : Pending),
    window = before ++ p :: (between ++ q :: after) → p.key = q.key →
      (∀ r ∈ between, r.key ≠ p.key) → p.digest ≠ q.digest

theorem noRepeat_suffix {window rest : List Pending} (h : NoRepeat window) (hs : rest <:+ window) :
    NoRepeat rest := by
  obtain ⟨dropped, rfl⟩ := hs
  rintro before between after p q rfl hkey hnone
  apply h (dropped ++ before) between after p q _ hkey hnone
  rw [List.append_assoc]

/-- The latest change of a key in the window is what a poll compares with. -/
theorem Inventory.pendingDigest_of_last {inv : Inventory} {before after : List Pending} {p : Pending}
    (h : inv.pending = before ++ p :: after) (hlast : ∀ r ∈ after, r.key ≠ p.key) :
    inv.pendingDigest p.key = some p.digest := by
  have hafter : (after.reverse.find? fun r => r.key == p.key) = none := by
    apply List.find?_eq_none.mpr
    intro r hr
    simpa using hlast r (List.mem_reverse.mp hr)
  unfold Inventory.pendingDigest
  rw [h, List.reverse_append, List.reverse_cons, List.append_assoc, List.find?_append, hafter]
  simp

/-! ## Runs with a clock -/

/-- A run and the last reading of its clock. -/
structure Clocked where
  clock : Nanos
  history : History

namespace Clocked

/-- Nothing happened yet. -/
def start (now : Nanos) (inv : Inventory) : Clocked := ⟨now, .start inv⟩

/-- One step; a poll reads the clock, which never goes back. -/
def next (X : Externs) (s : Clocked) : Act → Option Clocked
  | .poll now listing =>
    if s.clock ≤ now then some ⟨now, s.history.step X (.poll now listing)⟩ else none
  | .ack position => some ⟨s.clock, s.history.step X (.ack position)⟩

/-- The step relation. -/
def Steps (X : Externs) (s : Clocked) (a : Act) (t : Clocked) : Prop := s.next X a = some t

/-- A run of several steps. -/
def run (X : Externs) (s : Clocked) (acts : List Act) : Option Clocked := acts.foldlM (next X) s

theorem reach_run {X : Externs} {s t : Clocked} {acts : List Act} (h : s.run X acts = some t) :
    Reach (Steps X) anyStep s t := Reach.of_foldlM (fun _ _ _ hn => ⟨trivial, hn⟩) h

/-- The window of a run. -/
structure Ordered (s : Clocked) : Prop where
  inv : s.history.Inv
  times : (s.history.inv.pending.map Pending.atTime).Pairwise (· ≤ ·)
  read : ∀ p ∈ s.history.inv.pending, p.atTime ≤ s.clock
  bounded : s.history.inv.pending.length ≤ s.history.inv.options.maxInFlight
  fresh : NoRepeat s.history.inv.pending

section

variable {X : Externs} {s : Clocked}

theorem live_suffix (h : s.Ordered) (now : Nanos) :
    (s.history.inv.live now).pending <:+ s.history.inv.pending := by
  apply filter_suffix
  apply (List.pairwise_map.mp h.times).imp
  intro p q hpq hp
  have hpq : p.atTime ≤ q.atTime := hpq
  simp only [decide_eq_true_eq] at hp ⊢
  exact lt_of_le_of_lt (Nat.sub_le_sub_left hpq now) hp

theorem acknowledged_suffix (h : s.Ordered) (position : Json) :
    (s.history.inv.acknowledged position).pending <:+ s.history.inv.pending := by
  cases ha : s.history.inv.acknowledges position with
  | none =>
    rw [Inventory.acknowledged_of_none ha]
  | some p =>
    rw [Inventory.acknowledged_of_some ha]
    apply filter_suffix
    apply (List.pairwise_map.mp h.inv.wf.sorted).imp
    intro q r hqr hq
    have hqr : q.seq < r.seq := hqr
    simp only [decide_eq_true_eq] at hq ⊢
    omega

theorem noRepeat_append {now : Nanos} {listing : List ObjectEntry} (h : s.Ordered)
    (hb : s.history.inv.baseline ≠ .silent) :
    NoRepeat ((s.history.inv.live now).pending ++
      (s.history.inv.pollCore X now listing).2.map (Inventory.entryOf now)) := by
  intro before between after p q hw hkey hnone
  have hsplit : (s.history.inv.live now).pending ++
      (s.history.inv.pollCore X now listing).2.map (Inventory.entryOf now) =
      (before ++ p :: between) ++ q :: after := by
    rw [hw, List.append_assoc]
    rfl
  rcases append_split hsplit with ⟨more, hold⟩ | ⟨add, hbetween, hnew⟩
  · -- both were in flight before
    apply noRepeat_suffix h.fresh (live_suffix h now) before between more p q _ hkey hnone
    rw [hold, List.append_assoc]
    rfl
  have hq : q ∈ (s.history.inv.pollCore X now listing).2.map (Inventory.entryOf now) := by
    rw [hnew]
    exact List.mem_append_right _ List.mem_cons_self
  obtain ⟨e, he, rfl⟩ := List.mem_map.mp hq
  rcases append_split hbetween.symm with ⟨more, hold⟩ | ⟨add', -, hadd⟩
  · -- the earlier one was in flight, and is what the poll compared with
    have hmore : more ++ add = between := by
      rw [hold, List.append_assoc] at hbetween
      exact (List.cons.inj (List.append_cancel_left hbetween)).2.symm
    have hlast := Inventory.pendingDigest_of_last hold fun r hr =>
      hnone r (hmore ▸ List.mem_append_left add hr)
    obtain ⟨hdigest, -, hpending, -⟩ := Inventory.spec_of_emitted h.inv.wf he
    intro heq
    apply hpending
    rw [← hdigest]
    have hkey : p.key = e.change.entry.key := hkey
    rw [← hkey, hlast, heq]
    rfl
  · -- one poll does not report a key twice
    have hnodup := Inventory.nodup_emitted X now listing h.inv.wf hb
    have hkeys : ((s.history.inv.pollCore X now listing).2.map fun e => e.change.entry.key) =
        ((s.history.inv.pollCore X now listing).2.map (Inventory.entryOf now)).map Pending.key := by
      rw [List.map_map]
      rfl
    rw [hkeys, hnew, hadd, List.map_append, List.map_append, List.nodup_append] at hnodup
    have hp : p.key ∈ add'.map Pending.key ++ (p :: between).map Pending.key := by simp
    exact absurd hkey (hnodup.2.2 p.key hp _ (by simp))

theorem ordered_poll (h : s.Ordered) {now : Nanos} (hclock : s.clock ≤ now)
    (listing : List ObjectEntry) : Ordered ⟨now, s.history.step X (.poll now listing)⟩ := by
  have hinv := History.inv_poll X h.inv now listing
  have hoptions := History.options_step X s.history (.poll now listing)
  by_cases hb : s.history.inv.baseline = .silent
  · have hpending : (s.history.step X (.poll now listing)).inv.pending = [] := by
      simp only [History.step, Inventory.pollCore_silent X now listing hb]
      simp [Inventory.setBaseline, Inventory.live, Inventory.expire, h.inv.wf.silent hb]
    refine ⟨hinv, ?_, ?_, ?_, ?_⟩
    all_goals dsimp only; rw [hpending]
    · exact .nil
    · simp
    · exact Nat.zero_le _
    · intro before between after p q hw
      simp at hw
  · have hpending : (s.history.step X (.poll now listing)).inv.pending =
        (s.history.inv.live now).pending ++
          (s.history.inv.pollCore X now listing).2.map (Inventory.entryOf now) :=
      Inventory.pending_pollCore X now listing s.history.inv
    have hsuffix := live_suffix h now
    have hnew : ∀ t ∈ ((s.history.inv.pollCore X now listing).2.map (Inventory.entryOf now)).map
        Pending.atTime, t = now := by
      intro t ht
      rw [List.map_map] at ht
      obtain ⟨e, -, rfl⟩ := List.mem_map.mp ht
      rfl
    refine ⟨hinv, ?_, ?_, ?_, ?_⟩
    all_goals dsimp only; rw [hpending]
    · rw [List.map_append, List.pairwise_append]
      refine ⟨h.times.sublist (hsuffix.sublist.map _), ?_, ?_⟩
      · apply List.pairwise_of_forall_mem_list
        intro t ht u hu
        rw [hnew t ht, hnew u hu]
      · intro t ht u hu
        obtain ⟨p, hp, rfl⟩ := List.mem_map.mp ht
        rw [hnew u hu]
        exact (h.read p (hsuffix.subset hp)).trans hclock
    · intro p hp
      rcases List.mem_append.mp hp with hp | hp
      · exact (h.read p (hsuffix.subset hp)).trans hclock
      · rw [hnew p.atTime (List.mem_map_of_mem hp)]
    · -- what is emitted fits the room that is left
      have htaken : (s.history.inv.pollCore X now listing).2.length ≤
          s.history.inv.options.maxInFlight - (s.history.inv.live now).pending.length := by
        rw [← List.length_map (f := Emitted.change),
          (Inventory.pollCore_compare X now listing hb).1]
        exact List.length_take_le _ _
      have hlive := hsuffix.length_le
      have hbounded := h.bounded
      rw [hoptions, List.length_append, List.length_map]
      omega
    · exact noRepeat_append h hb

theorem ordered_ack (h : s.Ordered) (position : Json) :
    Ordered ⟨s.clock, s.history.step X (.ack position)⟩ := by
  have hsuffix := acknowledged_suffix h position
  refine ⟨History.inv_ack X h.inv position, h.times.sublist (hsuffix.sublist.map _),
    fun p hp => h.read p (hsuffix.subset hp), ?_, noRepeat_suffix h.fresh hsuffix⟩
  have hoptions := History.options_step X s.history (.ack position)
  dsimp only
  rw [hoptions]
  exact hsuffix.length_le.trans h.bounded

theorem ordered_start {inv₀ : Inventory} (h₀ : Inventory.Started X inv₀) (now : Nanos) :
    (start now inv₀).Ordered := by
  have hpending := h₀.pending
  refine ⟨History.inv_start h₀, ?_, ?_, ?_, ?_⟩
  all_goals dsimp only [start, History.start]; rw [hpending]
  · exact .nil
  · simp
  · exact Nat.zero_le _
  · intro before between after p q hw
    simp at hw

end

/-- **The pending window.** In every reachable state the changes in flight have strictly increasing
sequence numbers below the next one and emission times that do not decrease, there are no more of them
than `max_in_flight`, and no change of a key is in flight twice in a row. -/
theorem pending_window {X : Externs} {inv₀ : Inventory} {now : Nanos} {s : Clocked}
    (h₀ : Inventory.Started X inv₀) (hr : Reach (Steps X) anyStep (start now inv₀) s) :
    (s.history.inv.pending.map Pending.seq).Pairwise (· < ·) ∧
      (∀ p ∈ s.history.inv.pending, p.seq < s.history.inv.nextSeq) ∧
      (s.history.inv.pending.map Pending.atTime).Pairwise (· ≤ ·) ∧
      s.history.inv.pending.length ≤ s.history.inv.options.maxInFlight ∧
      NoRepeat s.history.inv.pending := by
  have h : s.Ordered := by
    refine hr.invariant (ordered_start h₀ now) fun u a v hu _ hs => ?_
    unfold Steps next at hs
    cases a with
    | poll t listing =>
      dsimp only at hs
      split_ifs at hs with hclock
      obtain rfl := Option.some.inj hs
      exact ordered_poll hu hclock listing
    | ack position =>
      obtain rfl := Option.some.inj hs
      exact ordered_ack hu position
  exact ⟨h.inv.wf.sorted, h.inv.wf.below, h.times, h.bounded, h.fresh⟩

/-- A key created, modified and put back, with nothing acknowledged. -/
def backAndForth : List Act :=
  [.poll 0 [], .poll 1 [{ key := "a" }], .poll 2 [{ key := "a", size := some 1 }],
    .poll 2 [{ key := "a", size := some 1 }], .poll 3 [{ key := "a" }]]

theorem pending_window_backAndForth :
    ∃ s, (start 0 Inventory.plainInventory).run plainExterns backAndForth = some s ∧
      s.history.inv.pending.map Pending.atTime = [1, 2, 3] ∧ NoRepeat s.history.inv.pending := by
  obtain ⟨s, hs, htimes⟩ := end_of_run
    (r := (start 0 Inventory.plainInventory).run plainExterns backAndForth)
    (P := fun s => s.history.inv.pending.map Pending.atTime = [1, 2, 3]) (by decide +kernel)
  exact ⟨s, hs, htimes,
    (pending_window Inventory.plainInventory_started (reach_run hs)).2.2.2.2⟩

end Clocked

end McpgSdk
