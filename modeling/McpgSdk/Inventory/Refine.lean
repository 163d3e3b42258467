import McpgSdk.Inventory.Watch
import McpgSdk.Inventory.Window
import McpgSdk.Inventory.Seen

/-!
# The watch thread runs the inventory

The results on inventories are about runs of polls and acknowledgements. The thread of an event source
makes such a run, whatever happens around it: it polls each listing that arrives, at the time it
arrives, and hears each acknowledgement that was sent, once and in the order of the channel.

* `next_heard`, `env_sent`, `listed_polls`: what each step does to the inventory and to the channel;
* `arrivals`: the listings that arrive on a run, and when;
* `Follows`: the run of the inventory that a run of the watch amounts to;
* **`watch_follows`**: every run of a watch amounts to one, and what the host is handed are its events,
  in order.
-/

set_option autoImplicit false

namespace McpgSdk

/-- The position a wake acknowledges. -/
def Wake.position? : Wake → Option Json
  | ack position => some position
  | _ => none

/-- The position the host acknowledges. -/
def WatchAct.position? : WatchAct → Option Json
  | ack position => some position
  | _ => none

/-- The listing that arrives. -/
def WatchAct.listing? : WatchAct → Option (List ObjectEntry)
  | listed (.ok listing) => some listing
  | _ => none

/-- The listing a step of the inventory polls, and when. -/
def Act.polled? : Act → Option (Nanos × List ObjectEntry)
  | ack _ => none
  | poll now listing => some (now, listing)

/-- The position a step of the inventory acknowledges. -/
def Act.position? : Act → Option Json
  | ack position => some position
  | poll _ _ => none

namespace Watch

/-- The acknowledgements that stand in the channel. -/
def unheard (w : Watch) : List Json := w.wakes.filterMap Wake.position?

/-- The listings that arrive on a run, each with the clock's time when it arrives. -/
def arrivals (X : Externs) (w : Watch) : List WatchAct → List (Nanos × List ObjectEntry)
  | [] => []
  | a :: acts => (a.listing?.map (w.clock, ·)).toList ++
      ((w.step X a).map fun w' => w'.arrivals X acts).getD []

section Arrivals

variable {X : Externs} {w u : Watch} {acts : List WatchAct} {a : WatchAct}

theorem arrivals_concat (h : w.run X acts = some u) :
    w.arrivals X (acts ++ [a]) = w.arrivals X acts ++ (a.listing?.map (u.clock, ·)).toList := by
  induction acts generalizing w with
  | nil =>
    cases h
    cases hs : u.step X a <;> simp [arrivals, hs]
  | cons b acts ih =>
    obtain ⟨v, hv, hrest⟩ := Option.bind_eq_some_iff.mp h
    simp only [List.cons_append, arrivals, hv, Option.map_some, Option.getD_some, ih hrest,
      List.append_assoc]

theorem arrivals_pass (ha : a.listing? = none) :
    w.arrivals X (acts ++ [a]) = w.arrivals X acts := by
  induction acts generalizing w with
  | nil => cases hs : w.step X a <;> simp [arrivals, ha, hs]
  | cons b acts ih => simp only [List.cons_append, arrivals, ih]

end Arrivals

section Steps

variable {X : Externs} {w w' : Watch} {a : WatchAct}

/-- The thread hears the acknowledgement at the head of the channel, or none. -/
theorem next_heard (h : w.next X = some w') :
    ((w'.inv = w.inv ∧ w'.unheard = w.unheard) ∨
      ∃ position, w'.inv = w.inv.acknowledged position ∧ w.unheard = position :: w'.unheard) ∧
      w'.clock = w.clock ∧ w'.eventSource = w.eventSource ∧ w'.emitted = w.emitted := by
  unfold next at h
  split at h
  all_goals
    first | (split_ifs at h <;> cases h) | cases h
  all_goals
    refine ⟨?_, rfl, rfl, rfl⟩
    first
    | exact .inl ⟨rfl, rfl⟩
    | exact .inl ⟨rfl, by simp_all [unheard, List.filterMap_cons, Wake.position?]⟩
    | exact .inr ⟨_, rfl, by simp_all [unheard, Wake.position?]⟩

/-- What is around the thread sends acknowledgements, which stand last in the channel. -/
theorem env_sent (ha : a.isEnv = true) (h : Steps X w a w') :
    w'.inv = w.inv ∧ w'.unheard = w.unheard ++ a.position?.toList ∧ w.clock ≤ w'.clock ∧
      w'.eventSource = w.eventSource ∧ w'.emitted = w.emitted ∧ a.listing? = none := by
  cases a with
  | run | listed => cases ha
  | ack position =>
    simp only [Steps, step, Option.ite_none_left_eq_some] at h
    obtain ⟨-, h⟩ := h
    cases h
    exact ⟨rfl, List.filterMap_append, le_refl _, rfl, rfl, rfl⟩
  | wake =>
    cases h
    exact ⟨rfl, List.filterMap_append, le_refl _, rfl, rfl, rfl⟩
  | cancel =>
    simp only [Steps, step, Option.ite_none_left_eq_some] at h
    obtain ⟨-, h⟩ := h
    cases h
    exact ⟨rfl, (List.append_nil _).symm, le_refl _, rfl, rfl, rfl⟩
  | sendStop =>
    simp only [Steps, step, Option.ite_none_right_eq_some] at h
    obtain ⟨-, h⟩ := h
    cases h
    exact ⟨rfl, List.filterMap_append, le_refl _, rfl, rfl, rfl⟩
  | tick d =>
    cases h
    exact ⟨rfl, (List.append_nil _).symm, Nat.le_add_right _ _, rfl, rfl, rfl⟩

theorem listed_polls {result : Except String (List ObjectEntry)} (hsource : w.eventSource = true)
    (h : Steps X w (.listed result) w') :
    (w'.unheard = w.unheard ∧ w'.clock = w.clock ∧ w'.eventSource = w.eventSource) ∧
      ((∃ listing, result = .ok listing ∧ w'.inv = (w.inv.pollCore X w.clock listing).1 ∧
          w'.emitted = w.emitted ++ texts X (w.inv.poll X w.clock listing).2) ∨
        (∃ message, result = .error message) ∧ w'.inv = w.inv ∧ w'.emitted = w.emitted) := by
  simp only [Steps, step, Option.ite_none_right_eq_some] at h
  obtain ⟨-, h⟩ := h
  cases result with
  | ok listing =>
    simp only [polled, hsource, if_true] at h
    cases h
    exact ⟨⟨rfl, rfl, hsource.symm⟩, .inl ⟨listing, rfl, rfl, rfl⟩⟩
  | error message =>
    cases h
    exact ⟨⟨rfl, rfl, rfl⟩, .inr ⟨⟨message, rfl⟩, rfl, rfl⟩⟩

end Steps

theorem fresh_of_spawn {X : Externs} {eventSource : Bool} {options : InventoryOptions}
    {resume : Option Json} {hooks : InventoryHooks} {now : Nanos} {w : Watch}
    (h : spawnInventoryWatchHooked X eventSource options resume hooks now = .ok w) :
    w.pc = .top ∧ w.wakes = [] ∧ w.stop = false ∧ w.stopSent = false ∧ w.emitted = [] := by
  unfold spawnInventoryWatchHooked at h
  split at h
  · cases h
  · cases hnew : Inventory.new X options resume <;> rw [hnew] at h <;> cases h
    exact ⟨rfl, rfl, rfl, rfl, rfl⟩

/-! ## The run of the inventory -/

/-- The gap a watch reports first when it could not start exactly, once it has reported it. -/
def reportedGap (w₀ w : Watch) : List WatchEvent :=
  if w₀.inv.gap = true ∧ w.inv.gap = false then [{ gap := true }] else []

/-- The run `did` of an inventory, ending in `s`, is what the steps `acts` of a watch amount to. -/
structure Follows (X : Externs) (w₀ : Watch) (acts : List WatchAct) (w : Watch) (did : List Act)
    (s : Clocked) : Prop where
  run : (Clocked.start w₀.clock w₀.inv).run X did = some s
  inv : s.history.inv = w.inv
  clock : s.clock ≤ w.clock
  /-- Every listing that arrived was polled, at the time it arrived, and nothing else was. -/
  polls : did.filterMap Act.polled? = w₀.arrivals X acts
  /-- Every acknowledgement that was sent was heard, or stands in the channel. -/
  heard : did.filterMap Act.position? ++ w.unheard = acts.filterMap WatchAct.position?
  gap : w.inv.gap = true → w₀.inv.gap = true
  emitted : w.emitted = texts X (reportedGap w₀ w ++ s.history.emits.map Emitted.event)

theorem texts_append (X : Externs) (es fs : List WatchEvent) :
    texts X (es ++ fs) = texts X es ++ texts X fs := List.filterMap_append

section Follows

variable {X : Externs} {w₀ w w' : Watch} {acts : List WatchAct} {did : List Act} {s : Clocked}

theorem history_next {u v : Clocked} {a : Act} (h : u.next X a = some v) :
    v.history = u.history.step X a := by
  cases a with
  | poll now listing =>
    simp only [Clocked.next, Option.ite_none_right_eq_some] at h
    obtain ⟨-, h⟩ := h
    cases h
    rfl
  | ack position =>
    cases h
    rfl

theorem run_concat {s₀ u v : Clocked} {a : Act} (h : s₀.run X did = some u)
    (ha : u.next X a = some v) : s₀.run X (did ++ [a]) = some v := by
  unfold Clocked.run at h ⊢
  rw [List.foldlM_append, h]
  simpa using ha

theorem Follows.emits_of_gap (h : Follows X w₀ acts w did s) (h₀ : Inventory.Started X w₀.inv)
    (hgap : w.inv.gap = true) : s.history.emits = [] := by
  have hinv : s.history.Inv := by
    refine (Clocked.reach_run h.run).invariant (I := fun u => u.history.Inv) (History.inv_start h₀)
      fun u a v hu _ hs => ?_
    rw [history_next hs]
    cases a with
    | poll now listing => exact History.inv_poll X hu now listing
    | ack position => exact History.inv_ack X hu position
  rw [← h.inv] at hgap
  rw [History.emits, hinv.untouched (hinv.wf.gap hgap)]
  rfl

theorem gap_pollCore (now : Nanos) (listing : List ObjectEntry) (inv : Inventory) :
    (inv.pollCore X now listing).1.gap = false := by
  by_cases hb : inv.baseline = .silent
  · rw [Inventory.pollCore_silent X now listing hb]
    rfl
  · rw [(Inventory.pollCore_compare X now listing hb).2.2.1]
    rfl

theorem gap_acknowledged (inv : Inventory) (position : Json) :
    (inv.acknowledged position).gap = inv.gap := by
  cases ha : inv.acknowledges position with
  | none => rw [Inventory.acknowledged_of_none ha]
  | some p => rw [Inventory.acknowledged_of_some ha]

theorem Follows.hear (h : Follows X w₀ acts w did s) {position : Json}
    (hinv : w'.inv = w.inv.acknowledged position) (hunheard : w.unheard = position :: w'.unheard)
    (hclock : w'.clock = w.clock) (hemitted : w'.emitted = w.emitted) :
    ∃ s', Follows X w₀ acts w' (did ++ [.ack position]) s' := by
  have hgap : w'.inv.gap = w.inv.gap := by rw [hinv, gap_acknowledged]
  refine ⟨_, run_concat h.run rfl, ?_, h.clock.trans hclock.symm.le, ?_, ?_, ?_, ?_⟩
  · exact (congrArg (Inventory.acknowledged · position) h.inv).trans hinv.symm
  · rw [← h.polls]
    simp [Act.polled?]
  · rw [← h.heard, hunheard]
    simp [Act.position?]
  · rw [hgap]
    exact h.gap
  · rw [hemitted, h.emitted, reportedGap, reportedGap, hgap]
    dsimp only
    rw [History.emits_ack]

theorem Follows.poll (h : Follows X w₀ acts w did s) (h₀ : Inventory.Started X w₀.inv)
    (hrun : w₀.run X acts = some w) {listing : List ObjectEntry}
    (hinv : w'.inv = (w.inv.pollCore X w.clock listing).1) (hunheard : w'.unheard = w.unheard)
    (hclock : w'.clock = w.clock)
    (hemitted : w'.emitted = w.emitted ++ texts X (w.inv.poll X w.clock listing).2) :
    ∃ s', Follows X w₀ (acts ++ [.listed (.ok listing)]) w' (did ++ [.poll w.clock listing]) s' := by
  have hgap : w'.inv.gap = false := by rw [hinv, gap_pollCore]
  refine ⟨_, run_concat h.run (if_pos h.clock), ?_, hclock.symm.le, ?_, ?_, ?_, ?_⟩
  · exact (congrArg (fun inv => (Inventory.pollCore X w.clock listing inv).1) h.inv).trans hinv.symm
  · rw [List.filterMap_append, h.polls, arrivals_concat hrun]
    rfl
  · rw [hunheard, List.filterMap_append, List.filterMap_append, ← h.heard]
    simp [List.filterMap_cons, Act.position?, WatchAct.position?]
  · rw [hgap]
    nofun
  · have hemits : (s.history.step X (.poll w.clock listing)).emits =
        s.history.emits ++ (w.inv.pollCore X w.clock listing).2 := by
      rw [History.emits_poll, h.inv]
    dsimp only
    rw [hemitted, h.emitted, hemits, ← texts_append, Inventory.poll]
    cases hold : w.inv.gap with
    | true => simp [reportedGap, hold, hgap, h.gap hold, h.emits_of_gap h₀ hold]
    | false => simp [reportedGap, hold, hgap]

theorem Follows.pass (h : Follows X w₀ acts w did s) {a : WatchAct} (hinv : w'.inv = w.inv)
    (hunheard : w'.unheard = w.unheard ++ a.position?.toList) (hclock : w.clock ≤ w'.clock)
    (hemitted : w'.emitted = w.emitted) (hlisting : a.listing? = none) :
    Follows X w₀ (acts ++ [a]) w' did s := by
  refine ⟨h.run, h.inv.trans hinv.symm, h.clock.trans hclock, ?_, ?_, ?_, ?_⟩
  · rw [h.polls, arrivals_pass hlisting]
  · rw [hunheard, ← List.append_assoc, h.heard, List.filterMap_append]
    cases hp : a.position? <;> simp [hp]
  · rw [hinv]
    exact h.gap
  · rw [hemitted, h.emitted, reportedGap, reportedGap, hinv]

/-- **One step of a watch** is at most one step of its inventory. -/
theorem Follows.step (h : Follows X w₀ acts w did s) (h₀ : Inventory.Started X w₀.inv)
    (hsource : w.eventSource = true) (hrun : w₀.run X acts = some w) {a : WatchAct}
    (hs : Steps X w a w') : ∃ did' s', Follows X w₀ (acts ++ [a]) w' did' s' := by
  cases hae : a.isEnv with
  | true =>
    obtain ⟨hinv, hunheard, hclock, -, hemitted, hlisting⟩ := env_sent hae hs
    exact ⟨did, s, h.pass hinv hunheard hclock hemitted hlisting⟩
  | false =>
    cases a with
    | run =>
      obtain ⟨⟨hinv, hunheard⟩ | ⟨position, hinv, hunheard⟩, hclock, -, hemitted⟩ := next_heard hs
      · exact ⟨did, s, h.pass hinv (by simp [hunheard, WatchAct.position?]) hclock.symm.le hemitted rfl⟩
      · obtain ⟨s', h'⟩ := h.hear hinv hunheard hclock hemitted
        exact ⟨_, s', h'.pass rfl (by simp [WatchAct.position?]) (le_refl _) rfl rfl⟩
    | listed result =>
      obtain ⟨⟨hunheard, hclock, -⟩, hlisted⟩ := listed_polls hsource hs
      obtain ⟨listing, rfl, hinv, hemitted⟩ | ⟨⟨message, rfl⟩, hinv, hemitted⟩ := hlisted
      · obtain ⟨s', h'⟩ := h.poll h₀ hrun hinv hunheard hclock hemitted
        exact ⟨_, s', h'⟩
      · exact ⟨did, s, h.pass hinv (by simp [hunheard, WatchAct.position?]) hclock.symm.le hemitted rfl⟩
    | ack | wake | cancel | sendStop | tick => cases hae

/-- **The thread of an event source runs its inventory.** Every run of a watch, whatever the host, the
plugin, the store and the clock do between its statements, amounts to a run of its inventory: of a poll
for each listing that arrived, at the time it arrived, and of the acknowledgements that were sent, each
heard once and in the order it was sent or still in the channel; and the host was handed the events of
that run in their order, after the gap of a start that could not be exact. -/
theorem watch_follows (h₀ : Spawned X w₀) (hrun : w₀.run X acts = some w) :
    ∃ did s, Follows X w₀ acts w did s := by
  obtain ⟨hstarted, hsource⟩ := h₀.started
  induction acts using List.reverseRecOn generalizing w with
  | nil =>
    cases hrun
    obtain ⟨options, resume, hooks, now, hspawn⟩ := h₀
    obtain ⟨-, hwakes, -, -, hemitted⟩ := fresh_of_spawn hspawn
    refine ⟨[], _, rfl, rfl, le_refl _, rfl, by rw [unheard, hwakes]; rfl, id, ?_⟩
    have hgap : reportedGap w₀ w₀ = [] := if_neg fun h => by simp [h.1] at h
    rw [hemitted, hgap]
    rfl
  | append_singleton acts a ih =>
    unfold run at hrun
    rw [List.foldlM_append] at hrun
    obtain ⟨u, hu, hlast⟩ := Option.bind_eq_some_iff.mp hrun
    obtain ⟨did, s, h⟩ := ih hu
    have hstep : Steps X u a w := by simpa [Steps] using hlast
    exact h.step hstarted (wf_of_reach h₀ (reach_run hu)).2 hu hstep

end Follows

/-- A listing, an object that appears, its acknowledgement heard, and another one sent while the store
is listed again. -/
def ackedOnce : List WatchAct :=
  [.run, .run, .listed (.ok []), .run, .tick minInterval, .run, .run, .run,
    .listed (.ok [{ key := "a" }]), .ack (Cursor.toValue ⟨1, 0, none⟩), .run, .run, .run,
    .tick minInterval, .run, .run, .run, .ack (Cursor.toValue ⟨1, 1, none⟩)]

theorem watch_follows_ackedOnce :
    ∃ w did s, (plainWatch 2).run plainExterns ackedOnce = some w ∧
      Follows plainExterns (plainWatch 2) ackedOnce w did s ∧
      did.filterMap Act.position? = [Cursor.toValue ⟨1, 0, none⟩] ∧ w.emitted.length = 1 := by
  obtain ⟨w, hw, hunheard, hemitted⟩ := end_of_run
    (r := (plainWatch 2).run plainExterns ackedOnce)
    (P := fun w => w.unheard.length = 1 ∧ w.emitted.length = 1) (by decide +kernel)
  have hspawned : Spawned plainExterns (plainWatch 2) :=
    ⟨{ Inventory.plainOptions with maxInFlight := 2 }, none, {}, 0, rfl⟩
  obtain ⟨did, s, h⟩ := watch_follows hspawned hw
  have hheard : did.filterMap Act.position? ++ w.unheard =
      [Cursor.toValue ⟨1, 0, none⟩] ++ [Cursor.toValue ⟨1, 1, none⟩] := h.heard
  exact ⟨w, did, s, hw, h, List.append_inj_left' hheard hunheard, hemitted⟩

end Watch

end McpgSdk
