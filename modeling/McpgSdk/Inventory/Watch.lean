import McpgSdk.Inventory.Converge

/-!
# The inventory watch thread

The loop a watch runs on its own thread: list the store when the window has room, emit what changed,
then wait for the interval, for acknowledgements and for wakes. The host and the plugin act between
any two steps of the thread.

* `spawnInventoryWatchHooked`, `Watch.step`: the thread, statement by statement, and its environment;
* `Watch.wf_of_reach`: the inventory of every reachable watch is well formed;
* `Inventory.Since`, `Inventory.poll_reports`: what stays of a window, and what a poll puts into it;
* **`relists_iff_hasRoom`**: when every pending change has waited for the whole timeout, the next
  iteration lists the store and reports them again if and only if the window has room;
* `full_window_not_relisted`: a full window of lost changes is not listed again.
-/

set_option autoImplicit false

namespace McpgSdk

open OrdMap

/-- What wakes a watch. -/
inductive Wake
  | ack (position : Json)
  /-- List now: something told the plugin the store changed. -/
  | changed
  | stop

/-- How long a burst of notifications may take to settle into one listing. -/
def changeSettle : Nanos := millis 50

/-- Where the thread stands. -/
inductive WatchPc
  /-- At the head of the loop. -/
  | top
  /-- The stop flag was read, and was not set. -/
  | checked
  /-- Inside the call of `list`. -/
  | listing
  /-- Before the deadline of the wait is set. -/
  | arming
  | waiting (deadline : Nanos)
  /-- Taking what else arrived with an acknowledgement. -/
  | draining (deadline : Nanos) (changed : Bool)
  /-- Asleep after a notification. -/
  | settling (wakeAt : Nanos)
  /-- Taking what else arrived with a notification. -/
  | settled
  /-- The thread returned, or it panicked. -/
  | stopped
  deriving DecidableEq, Repr

/-- An inventory watch: its thread, its channel and what it shares with the host. -/
structure Watch where
  inv : Inventory
  eventSource : Bool
  pc : WatchPc
  wakes : List Wake
  stop : Bool
  /-- The wake that follows the stop flag was sent. -/
  stopSent : Bool
  clock : Nanos
  /-- Calls of `list` so far. -/
  listings : ℕ
  /-- Texts handed to `emit_event` so far. -/
  emitted : List String

/-- What a plugin changes about an inventory watch beyond its listing. -/
structure InventoryHooks where
  describe : Option Describe := none
  quietRemovals : Bool := false

/-- Start an inventory watch. `eventSource` tells whether the resource is an MCP Events source. -/
def spawnInventoryWatchHooked (X : Externs) (eventSource : Bool) (options : InventoryOptions)
    (resume : Option Json) (hooks : InventoryHooks) (now : Nanos) : Except WatchError Watch := do
  match options.validate with
  | .error message => throw (.invalidSpec (options.store ++ ": " ++ message))
  | .ok () =>
    let inv ← Inventory.new X options resume
    let inv := match hooks.describe with
      | some d => inv.withDescribe d
      | none => inv
    let inv := if hooks.quietRemovals then inv.withQuietRemovals else inv
    return ⟨inv, eventSource, .top, [], false, false, now, 0, []⟩

/-- A step of the thread, or of what surrounds it. -/
inductive WatchAct
  /-- The thread's next statement. -/
  | run
  /-- `list` returns. -/
  | listed (result : Except String (List ObjectEntry))
  /-- `acknowledge_inventory_watch`. -/
  | ack (position : Json)
  /-- `InventoryWaker::wake`. -/
  | wake
  /-- `cancel_inventory_watch` sets the flag, then sends its wake. -/
  | cancel
  | sendStop
  | tick (d : Nanos)

/-- The step is not the thread's. -/
def WatchAct.isEnv : WatchAct → Bool
  | run | listed _ => false
  | _ => true

namespace Watch

/-- The texts of events, those that have one. -/
def texts (X : Externs) (events : List WatchEvent) : List String :=
  events.filterMap fun e => (X.eventToString e).toOption

/-- A listing arrived: poll, and emit the changes. A resource watch acknowledges at once, since a
notification is never retried, and gets one bare change. -/
def polled (X : Externs) (w : Watch) (listing : List ObjectEntry) : Watch :=
  let r := w.inv.poll X w.clock listing
  if w.eventSource then { w with inv := r.1, emitted := w.emitted ++ texts X r.2 }
  else if r.2.any fun e => e.eventType.isSome then
    { w with inv := r.1.acknowledgeAll r.2, emitted := w.emitted ++ ["\x7b\x7d"] }
  else { w with inv := r.1 }

/-- The thread's next statement; none while it is blocked. -/
def next (X : Externs) (w : Watch) : Option Watch :=
  match w.pc, w.wakes with
  | .top, _ => if w.stop then some { w with pc := .stopped } else some { w with pc := .checked }
  | .checked, _ =>
    if w.inv.hasRoom then some { w with pc := .listing, listings := w.listings + 1 }
    else some { w with pc := .arming }
  | .listing, _ => none
  -- a deadline `Instant` cannot hold is a panic
  | .arming, _ =>
    if instantHolds X.lastInstant (w.clock + w.inv.options.interval) then
      some { w with pc := .waiting (w.clock + w.inv.options.interval) }
    else some { w with pc := .stopped }
  -- the wait takes a wake that is there before it looks at the clock
  | .waiting deadline, [] => if deadline ≤ w.clock then some { w with pc := .top } else none
  | .waiting deadline, .ack position :: rest =>
    some { w with
      inv := w.inv.acknowledged position, wakes := rest, pc := .draining deadline false }
  | .waiting _, .changed :: rest =>
    some { w with wakes := rest, pc := .settling (w.clock + changeSettle) }
  | .draining deadline changed, [] =>
    some { w with pc := if changed then .top else .waiting deadline }
  | .draining deadline changed, .ack position :: rest =>
    some { w with
      inv := w.inv.acknowledged position, wakes := rest, pc := .draining deadline changed }
  | .draining deadline _, .changed :: rest =>
    some { w with wakes := rest, pc := .draining deadline true }
  | .settling wakeAt, _ => if wakeAt ≤ w.clock then some { w with pc := .settled } else none
  | .settled, [] => some { w with pc := .top }
  | .settled, .ack position :: rest =>
    some { w with inv := w.inv.acknowledged position, wakes := rest }
  | .settled, .changed :: rest => some { w with wakes := rest }
  | .waiting _, .stop :: rest => some { w with wakes := rest, pc := .stopped }
  | .draining _ _, .stop :: rest => some { w with wakes := rest, pc := .stopped }
  | .settled, .stop :: rest => some { w with wakes := rest, pc := .stopped }
  | .stopped, _ => none

/-- One step; none where the step cannot be taken. The host never acknowledges after it cancelled. -/
def step (X : Externs) (w : Watch) : WatchAct → Option Watch
  | .run => w.next X
  | .listed result =>
    if w.pc = .listing then
      match result with
      | .ok listing => some { w.polled X listing with pc := .arming }
      | .error _ => some { w with pc := .arming }
    else none
  | .ack position => if w.stop then none else some { w with wakes := w.wakes ++ [.ack position] }
  | .wake => some { w with wakes := w.wakes ++ [.changed] }
  | .cancel => if w.stop then none else some { w with stop := true }
  | .sendStop =>
    if w.stop && !w.stopSent then some { w with wakes := w.wakes ++ [.stop], stopSent := true }
    else none
  | .tick d => some { w with clock := w.clock + d }

/-- The step relation. -/
def Steps (X : Externs) (w : Watch) (a : WatchAct) (w' : Watch) : Prop := w.step X a = some w'

/-- A run of several steps. -/
def run (X : Externs) (w : Watch) (acts : List WatchAct) : Option Watch :=
  acts.foldlM (fun w a => w.step X a) w

theorem reach_run {X : Externs} {w w' : Watch} {acts : List WatchAct}
    (h : w.run X acts = some w') : Reach (Steps X) anyStep w w' :=
  Reach.of_foldlM (fun _ _ _ hs => ⟨trivial, hs⟩) h

/-! ## What a step can do -/

theorem next_cases {X : Externs} {w w' : Watch} (h : w.next X = some w') :
    (w'.inv = w.inv ∨ ∃ position, w'.inv = w.inv.acknowledged position) ∧
      w'.clock = w.clock ∧ w'.eventSource = w.eventSource := by
  unfold next at h
  split at h
  all_goals
    first | (split_ifs at h <;> cases h) | cases h
    all_goals
      refine ⟨?_, rfl, rfl⟩
      first | exact .inl rfl | exact .inr ⟨_, rfl⟩

theorem env_cases {X : Externs} {w w' : Watch} {a : WatchAct} (ha : a.isEnv = true)
    (h : w.step X a = some w') : ∃ wakes stop stopSent d,
      w' = { w with wakes := wakes, stop := stop, stopSent := stopSent, clock := w.clock + d } := by
  cases a with
  | run => cases ha
  | listed result => cases ha
  | ack position =>
    simp only [step, Option.ite_none_left_eq_some] at h
    exact ⟨_, _, _, 0, (Option.some.inj h.2).symm⟩
  | wake => exact ⟨_, _, _, 0, (Option.some.inj h).symm⟩
  | cancel =>
    simp only [step, Option.ite_none_left_eq_some] at h
    exact ⟨_, _, _, 0, (Option.some.inj h.2).symm⟩
  | sendStop =>
    simp only [step, Option.ite_none_right_eq_some] at h
    exact ⟨_, _, _, 0, (Option.some.inj h.2).symm⟩
  | tick d => exact ⟨_, _, _, d, (Option.some.inj h).symm⟩

theorem listed_cases {X : Externs} {w w' : Watch} {result : Except String (List ObjectEntry)}
    (h : w.step X (.listed result) = some w') : w.pc = .listing ∧
      ((∃ listing, result = .ok listing ∧ w' = { w.polled X listing with pc := .arming }) ∨
        w' = { w with pc := .arming }) := by
  simp only [step, Option.ite_none_right_eq_some] at h
  obtain ⟨hpc, h⟩ := h
  cases result with
  | ok listing => exact ⟨hpc, .inl ⟨listing, rfl, (Option.some.inj h).symm⟩⟩
  | error message => exact ⟨hpc, .inr (Option.some.inj h).symm⟩

theorem wf_polled {X : Externs} {w : Watch} (hw : w.inv.WF) (listing : List ObjectEntry) :
    (w.polled X listing).inv.WF ∧ (w.polled X listing).eventSource = w.eventSource := by
  have h : (w.inv.poll X w.clock listing).1.WF := Inventory.wf_pollCore hw w.clock listing
  unfold polled
  dsimp only
  split_ifs
  · exact ⟨h, rfl⟩
  · exact ⟨Inventory.wf_acknowledgeAll h _, rfl⟩
  · exact ⟨h, rfl⟩

theorem wf_step {X : Externs} {w w' : Watch} {a : WatchAct} (hw : w.inv.WF)
    (h : w.step X a = some w') : w'.inv.WF ∧ w'.eventSource = w.eventSource := by
  cases hae : a.isEnv with
  | true =>
    obtain ⟨_, _, _, _, rfl⟩ := env_cases hae h
    exact ⟨hw, rfl⟩
  | false =>
    cases a with
    | run =>
      obtain ⟨hinv | ⟨position, hinv⟩, -, hs⟩ := next_cases h
      · exact ⟨hinv ▸ hw, hs⟩
      · exact ⟨hinv ▸ Inventory.wf_acknowledged hw position, hs⟩
    | listed result =>
      obtain ⟨-, ⟨listing, -, rfl⟩ | rfl⟩ := listed_cases h
      · exact wf_polled hw listing
      · exact ⟨hw, rfl⟩
    | ack | wake | cancel | sendStop | tick => cases hae

/-- A watch of an event source as it is spawned. -/
def Spawned (X : Externs) (w : Watch) : Prop :=
  ∃ options resume hooks now, spawnInventoryWatchHooked X true options resume hooks now = .ok w

theorem spawn_eq_ok {X : Externs} {eventSource : Bool} {options : InventoryOptions}
    {resume : Option Json} {hooks : InventoryHooks} {now : Nanos} {w : Watch}
    (h : spawnInventoryWatchHooked X eventSource options resume hooks now = .ok w) :
    options.validate = .ok () ∧ Inventory.Started X w.inv ∧ w.inv.options = options ∧
      w.eventSource = eventSource := by
  unfold spawnInventoryWatchHooked at h
  split at h
  · cases h
  · next hvalid =>
    cases hnew : Inventory.new X options resume with
    | error e =>
      rw [hnew] at h
      cases h
    | ok inv =>
      rw [hnew] at h
      cases h
      obtain ⟨confirmed, baseline, gap, rfl, -, -⟩ := Inventory.new_eq_ok hnew
      obtain ⟨describe, quiet⟩ := hooks
      refine ⟨hvalid, ⟨options, resume, _, describe, quiet, hnew, ?_⟩, ?_, rfl⟩
      · cases describe <;> cases quiet <;> rfl
      · cases describe <;> cases quiet <;> rfl

theorem Spawned.started {X : Externs} {w : Watch} (h : Spawned X w) :
    Inventory.Started X w.inv ∧ w.eventSource = true := by
  obtain ⟨options, resume, hooks, now, h⟩ := h
  exact ⟨(spawn_eq_ok h).2.1, (spawn_eq_ok h).2.2.2⟩

/-- **The inventory of every reachable watch is well formed.** -/
theorem wf_of_reach {X : Externs} {w₀ w : Watch} (h₀ : Spawned X w₀)
    (hr : Reach (Steps X) anyStep w₀ w) : w.inv.WF ∧ w.eventSource = true :=
  hr.invariant (I := fun w => w.inv.WF ∧ w.eventSource = true)
    ⟨h₀.started.1.wf, h₀.started.2⟩ fun _ _ _ hu _ hs =>
      ⟨(wf_step hu.1 hs).1, (wf_step hu.1 hs).2.trans hu.2⟩

/-! ## Lost changes -/

/-- Every pending change has waited for the whole timeout. -/
def Expired (w : Watch) : Prop :=
  ∀ p ∈ w.inv.pending, w.inv.options.ackTimeout ≤ w.clock - p.atTime

/-- `w'` is where the next iteration of the loop starts, seen from `w`. -/
def NextIteration (X : Externs) (w w' : Watch) : Prop :=
  Reach (Steps X) (fun u _ => u.pc ≠ .top) w w' ∧ w'.pc = .top

/-- The thread is left alone until its next statement. -/
def Meanwhile (X : Externs) : Watch → Watch → Prop := Reach (Steps X) fun _ a => a.isEnv = true

/-- The iteration that starts at `w'` lists the store. Whatever happens around the thread meanwhile,
the listing is polled when it comes: its events are emitted, no change that was in the window at `w`
stays there, and each that the listing still shows is back in it under a new number, unless others
fill it. -/
def Relists (X : Externs) (w w' : Watch) : Prop :=
  ∃ c, w'.step X .run = some c ∧ ∀ c', Meanwhile X c c' →
    ∃ w₁, c'.step X .run = some w₁ ∧ w₁.listings = w'.listings + 1 ∧
      ∀ w₂, Meanwhile X w₁ w₂ → ∀ listing, ∃ w₃,
        w₂.step X (.listed (.ok listing)) = some w₃ ∧
        w₃.emitted = w₂.emitted ++ texts X (w₂.inv.poll X w₂.clock listing).2 ∧
        ∀ p ∈ w.inv.pending, (∀ p' ∈ w₃.inv.pending, p'.seq ≠ p.seq) ∧
          ((Inventory.target X listing)[p.key]? = p.digest → w₂.inv.confirmed[p.key]? ≠ p.digest →
            (∃ p' ∈ w₃.inv.pending, p'.key = p.key ∧ p'.digest = p.digest) ∨
              w₃.inv.hasRoom = false)

theorem frame_of_meanwhile {X : Externs} {w u : Watch} (h : Meanwhile X w u) :
    u.pc = w.pc ∧ u.inv = w.inv ∧ u.listings = w.listings :=
  h.invariant (I := fun u => u.pc = w.pc ∧ u.inv = w.inv ∧ u.listings = w.listings)
    ⟨rfl, rfl, rfl⟩ fun _ _ _ hu ha hs => by
      obtain ⟨_, _, _, _, rfl⟩ := env_cases ha hs
      exact hu

end Watch

/-! ## The window as the thread goes on -/

namespace Inventory

/-- What is left in `inv` of the window `old` had: entries of `old`, and newer ones. -/
structure Since (old inv : Inventory) : Prop where
  options : inv.options = old.options
  quiet : inv.quietRemovals = old.quietRemovals
  seq : old.nextSeq ≤ inv.nextSeq
  window : ∀ p ∈ inv.pending, p.seq < old.nextSeq → p ∈ old.pending
  baseline : old.baseline ≠ .silent → inv.baseline ≠ .silent

theorem Since.refl (inv : Inventory) : inv.Since inv :=
  ⟨rfl, rfl, le_rfl, fun _ hp _ => hp, id⟩

theorem since_acknowledged {old inv : Inventory} (h : old.Since inv) (position : Json) :
    old.Since (inv.acknowledged position) := by
  cases ha : inv.acknowledges position with
  | none => rwa [acknowledged_of_none ha]
  | some q =>
    rw [acknowledged_of_some ha]
    exact ⟨h.options, h.quiet, h.seq, fun p hp => h.window p (List.mem_of_mem_filter hp),
      h.baseline⟩

theorem window_poll {X : Externs} {inv : Inventory} {now : Nanos} {listing : List ObjectEntry}
    {p : Pending} (hp : p ∈ (inv.pollCore X now listing).1.pending) :
    p ∈ (inv.live now).pending ∨ inv.nextSeq ≤ p.seq := by
  rcases mem_pending_pollCore.mp hp with hp | ⟨e, he, rfl⟩
  · exact .inl hp
  · exact .inr (seq_of_emitted he).1

theorem since_poll {X : Externs} {old inv : Inventory} (h : old.Since inv) (now : Nanos)
    (listing : List ObjectEntry) : old.Since (inv.pollCore X now listing).1 := by
  obtain ⟨hoptions, hquiet⟩ := pollCore_options X now listing inv
  refine ⟨hoptions.trans h.options, hquiet.trans h.quiet, h.seq.trans ?_, fun p hp hlt => ?_,
    fun _ => ?_⟩
  · by_cases hb : inv.baseline = .silent
    · rw [pollCore_silent X now listing hb]
      exact le_rfl
    · rw [(pollCore_compare X now listing hb).2.2.1]
      exact Nat.le_add_right _ _
  · rcases window_poll hp with hp | hge
    · exact h.window p (mem_live hp) hlt
    · exact absurd (hlt.trans_le (h.seq.trans hge)) (lt_irrefl _)
  · by_cases hb : inv.baseline = .silent
    · rw [pollCore_silent X now listing hb]
      exact Baseline.noConfusion
    · rw [(pollCore_compare X now listing hb).2.2.1]
      exact Baseline.noConfusion

theorem since_acknowledgeAll {old inv : Inventory} (h : old.Since inv) (events : List WatchEvent) :
    old.Since (inv.acknowledgeAll events) := by
  induction events generalizing inv with
  | nil => exact h
  | cons e events ih =>
    rw [acknowledgeAll, List.foldl_cons]
    refine ih ?_
    cases e.upstreamCursor with
    | none => exact h
    | some position => exact since_acknowledged h position

/-- A change the listing shows and the host does not have is in the window after a poll, unless
others fill it. -/
theorem poll_reports {X : Externs} {inv : Inventory} (hw : inv.WF) (hb : inv.baseline ≠ .silent)
    (now : Nanos) (listing : List ObjectEntry) {key : String}
    (hquiet : (target X listing)[key]? = none → inv.quietRemovals = false)
    (hne : inv.confirmed[key]? ≠ (target X listing)[key]?) :
    let r := inv.pollCore X now listing
    (∃ p ∈ r.1.pending, p.key = key ∧ p.digest = (target X listing)[key]?) ∨
      r.1.hasRoom = false := by
  intro r
  obtain ⟨hc, -, hst, -⟩ := pollCore_compare X now listing hb
  have hpending : r.1.pending = (inv.live now).pending ++ r.2.map (entryOf now) := by rw [hst]
  by_cases hflight : (inv.live now).pendingDigest key = some (target X listing)[key]?
  · obtain ⟨p, hp, hkey, hd⟩ := pendingDigest_mem hflight
    exact .inl ⟨p, hpending ▸ List.mem_append_left _ hp, hkey, hd⟩
  · -- the change is found, and is emitted unless the window is cut before it
    obtain ⟨c, hcm, hck⟩ := exists_change (hw.live_seen now) hquiet hne hflight
    have hcd := (mem_changes (hw.live_seen now) hcm).1
    rw [hck] at hcd
    by_cases hlen : ((inv.live now).changes X (currentOf listing)).length ≤ (inv.live now).room
    · left
      have hmem : c ∈ r.2.map Emitted.change := by
        rw [hc, taken, List.take_of_length_le hlen]
        exact hcm
      obtain ⟨e, he, rfl⟩ := List.mem_map.mp hmem
      exact ⟨entryOf now e, hpending ▸ List.mem_append_right _ (List.mem_map_of_mem he), hck, hcd⟩
    · right
      have hemitted : r.2.length = (inv.live now).room := by
        rw [← List.length_map (f := Emitted.change), hc, taken, List.length_take]
        omega
      have hoptions : r.1.options.maxInFlight = (inv.live now).options.maxInFlight :=
        congrArg InventoryOptions.maxInFlight (pollCore_options X now listing inv).1
      rw [hasRoom, decide_eq_false_iff_not, hoptions, hpending, List.length_append,
        List.length_map, hemitted, room]
      omega

end Inventory

namespace Watch

/-- The thread goes on: its clock does, and its window is what is left and what is new. -/
def Since (w u : Watch) : Prop := w.clock ≤ u.clock ∧ w.inv.Since u.inv

theorem since_step {X : Externs} {w u v : Watch} {a : WatchAct} (h : w.Since u)
    (hs : u.step X a = some v) : w.Since v := by
  obtain ⟨hclock, hinv⟩ := h
  cases hae : a.isEnv with
  | true =>
    obtain ⟨_, _, _, d, rfl⟩ := env_cases hae hs
    exact ⟨Nat.le_add_right_of_le hclock, hinv⟩
  | false =>
    cases a with
    | run =>
      obtain ⟨heq | ⟨position, heq⟩, hc, -⟩ := next_cases hs
      · exact ⟨hc ▸ hclock, heq ▸ hinv⟩
      · exact ⟨hc ▸ hclock, heq ▸ Inventory.since_acknowledged hinv position⟩
    | listed result =>
      obtain ⟨-, ⟨listing, -, rfl⟩ | rfl⟩ := listed_cases hs
      · have hpoll := Inventory.since_poll (X := X) hinv u.clock listing
        unfold polled
        dsimp only
        split_ifs
        · exact ⟨hclock, hpoll⟩
        · exact ⟨hclock, Inventory.since_acknowledgeAll hpoll _⟩
        · exact ⟨hclock, hpoll⟩
      · exact ⟨hclock, hinv⟩
    | ack | wake | cancel | sendStop | tick => cases hae

theorem since_of_reach {X : Externs} {ok : Watch → WatchAct → Prop} {w u : Watch}
    (hr : Reach (Steps X) ok w u) : w.Since u :=
  hr.invariant ⟨le_rfl, Inventory.Since.refl _⟩ fun _ _ _ hu _ hs => since_step hu hs

/-- A poll after everything in the window of `w` expired. -/
theorem polled_after_expiry {X : Externs} {w u : Watch} (hw : w.inv.WF) (hu : u.inv.WF)
    (hexp : w.Expired) (hsince : w.Since u) (listing : List ObjectEntry) {p : Pending}
    (hp : p ∈ w.inv.pending) :
    let r := u.inv.pollCore X u.clock listing
    (∀ p' ∈ r.1.pending, p'.seq ≠ p.seq) ∧
      ((Inventory.target X listing)[p.key]? = p.digest → u.inv.confirmed[p.key]? ≠ p.digest →
        (∃ p' ∈ r.1.pending, p'.key = p.key ∧ p'.digest = p.digest) ∨ r.1.hasRoom = false) := by
  intro r
  obtain ⟨hclock, hinv⟩ := hsince
  refine ⟨fun p' hp' hseq => ?_, fun htarget hne => ?_⟩
  · have hlt : p'.seq < w.inv.nextSeq := hseq ▸ hw.below p hp
    rcases Inventory.window_poll hp' with hlive | hge
    · -- it is one of the old entries, and they all timed out
      have hold := hexp p' (hinv.window p' (Inventory.mem_live hlive) hlt)
      have hfresh := of_decide_eq_true (List.mem_filter.mp hlive).2
      rw [hinv.options] at hfresh
      exact absurd (hold.trans (Nat.sub_le_sub_right hclock p'.atTime)) (Nat.not_le.mpr hfresh)
    · exact absurd (hlt.trans_le (hinv.seq.trans hge)) (lt_irrefl _)
  · have hb : w.inv.baseline ≠ .silent := fun hs => by
      rw [hw.silent hs] at hp
      cases hp
    have hquiet : (Inventory.target X listing)[p.key]? = none → u.inv.quietRemovals = false := by
      intro hnone
      rw [hinv.quiet]
      by_contra hq
      exact hw.quiet (eq_true_of_ne_false hq) p hp (htarget.symm.trans hnone)
    rw [← htarget] at hne ⊢
    exact Inventory.poll_reports hu (hinv.baseline hb) u.clock listing hquiet hne

/-- **When lost changes are reported again.** In every reachable state in which every pending change
has waited for the timeout, the next iteration lists the store and reports the lost changes again if
and only if the window has room when it starts. -/
theorem relists_iff_hasRoom {X : Externs} {w₀ w w' : Watch} (h₀ : Spawned X w₀)
    (hr : Reach (Steps X) anyStep w₀ w) (hexp : w.Expired) (hn : NextIteration X w w')
    (hstop : w'.stop = false) : Relists X w w' ↔ w'.inv.hasRoom = true := by
  obtain ⟨hreach, htop⟩ := hn
  have hcheck : w'.step X .run = some { w' with pc := .checked } := by
    simp only [step, next, htop, hstop, Bool.false_eq_true, if_false]
  constructor
  · rintro ⟨c, hc, hall⟩
    rw [hcheck, Option.some.injEq] at hc
    obtain ⟨w₁, h₁, hl, -⟩ := hall c .refl
    by_contra hroom
    rw [← hc] at h₁
    simp only [step, next, hroom, Bool.false_eq_true, if_false, Option.some.injEq] at h₁
    rw [← h₁] at hl
    exact absurd hl (by simp)
  · intro hroom
    refine ⟨_, hcheck, fun c' hc' => ?_⟩
    obtain ⟨hpc, hinv, hlistings⟩ := frame_of_meanwhile hc'
    have hbegin : c'.step X .run = some { c' with pc := .listing, listings := c'.listings + 1 } := by
      have hroom' : c'.inv.hasRoom = true := hinv ▸ hroom
      simp only [step, next, hpc, hroom', if_true]
    refine ⟨_, hbegin, congrArg (· + 1) hlistings, fun w₂ h₂ listing => ?_⟩
    have hr' : Reach (Steps X) anyStep w c' := ((hreach.mono fun _ _ _ => trivial).tail trivial
      hcheck).trans (hc'.mono fun _ _ _ => trivial)
    have hr₁ : Reach (Steps X) anyStep w w₂ :=
      (hr'.tail trivial hbegin).trans (h₂.mono fun _ _ _ => trivial)
    obtain ⟨hwf, -⟩ := wf_of_reach h₀ hr
    obtain ⟨hwf₂, hsource₂⟩ := wf_of_reach h₀ (hr.trans hr₁)
    have hpc₂ : w₂.pc = .listing := (frame_of_meanwhile h₂).1
    refine ⟨{ w₂.polled X listing with pc := .arming }, ?_, ?_, fun p hp => ?_⟩
    · simp only [step, hpc₂, if_true]
    · simp only [polled, hsource₂, if_true]
    · simp only [polled, hsource₂, if_true]
      exact polled_after_expiry hwf hwf₂ hexp (since_of_reach hr₁) listing hp

/-- A watch with a window of `n`, as it is spawned. -/
def plainWatch (n : ℕ) : Watch :=
  ⟨Inventory.fresh { Inventory.plainOptions with maxInFlight := n } ∅ .silent false, true, .top, [],
    false, false, 0, 0, []⟩

/-- The baseline, one new object whose event is lost, and a wait beyond the timeout. -/
def lostChange : List WatchAct :=
  [.run, .run, .listed (.ok []), .run, .tick minInterval, .run,
    .run, .run, .listed (.ok [{ key := "a" }]), .run, .tick (millis 60000), .run]

/-- The lost change fills half of a window of two, and is reported again. -/
theorem relists_iff_hasRoom_lostChange :
    ∃ w, (plainWatch 2).run plainExterns lostChange = some w ∧ w.inv.inFlight = 1 ∧
      Relists plainExterns w w := by
  obtain ⟨w, hw, hone, htop, hstop, hroom, hexp⟩ := end_of_run
    (r := (plainWatch 2).run plainExterns lostChange)
    (P := fun w => w.inv.inFlight = 1 ∧ w.pc = .top ∧ w.stop = false ∧ w.inv.hasRoom = true ∧
      ∀ p ∈ w.inv.pending, w.inv.options.ackTimeout ≤ w.clock - p.atTime) (by decide +kernel)
  have hspawned : Spawned plainExterns (plainWatch 2) :=
    ⟨{ Inventory.plainOptions with maxInFlight := 2 }, none, {}, 0, rfl⟩
  exact ⟨w, hw, hone,
    (relists_iff_hasRoom hspawned (reach_run hw) hexp ⟨.refl, htop⟩ hstop).mpr hroom⟩

/-- **A full window of lost changes is not looked at**: with a window of one, the iteration
after the timeout does not list. -/
theorem full_window_not_relisted :
    ¬ ∀ (X : Externs) (w₀ w w' : Watch), Spawned X w₀ → Reach (Steps X) anyStep w₀ w →
      w.Expired → NextIteration X w w' → w'.stop = false → Relists X w w' := by
  intro H
  obtain ⟨w, hw, htop, hstop, hexp, hlist⟩ := end_of_run
    (r := (plainWatch 1).run plainExterns lostChange)
    (P := fun w => w.pc = .top ∧ w.stop = false ∧
      (∀ p ∈ w.inv.pending, w.inv.options.ackTimeout ≤ w.clock - p.atTime) ∧
      ((w.step plainExterns .run).bind (step plainExterns · .run)).map listings = some w.listings)
      (by decide +kernel)
  obtain ⟨c, hc, hall⟩ := H plainExterns (plainWatch 1) w w
    ⟨{ Inventory.plainOptions with maxInFlight := 1 }, none, {}, 0, rfl⟩ (reach_run hw) hexp
    ⟨.refl, htop⟩ hstop
  obtain ⟨w₁, h₁, hl, -⟩ := hall c .refl
  rw [hc, Option.bind_some, h₁, Option.map_some, Option.some.injEq] at hlist
  omega

end Watch

end McpgSdk
