import McpgSdk.Inventory.Refine
import McpgSdk.Lib.Fair

/-!
# A cancelled inventory watch ends

`cancel_inventory_watch` sets the stop flag, sends a stop behind whatever the channel holds, and joins
the thread. A thread that is listing, asleep or busy with a burst of wakes must still come to its end,
and it must not go back to the store, but for the listing it may be about to begin.

* `Marked`, `left`: a wake of some kind stands in the channel, and what the thread does before it takes
  the first of them;
* `thread_lowers`, **`leadsTo_of_mark`**: each statement brings the thread nearer to that wake, so it is
  taken;
* `StopKept`: a stop that was sent stays in the channel until the thread ends;
* **`cancel_ends`**: in every fair execution the thread ends once the flag is set, and at most one more
  listing begins, by a thread that had read the flag before.
-/

set_option autoImplicit false

namespace McpgSdk

/-- The statements before the thread next takes a wake. -/
def WatchPc.stepsLeft : WatchPc → ℕ
  | top => 5
  | checked => 4
  | listing => 3
  | arming | settling _ => 2
  | waiting _ | draining _ _ | settled => 1
  | stopped => 0

/-- The listings the thread may still begin once the stop flag is set. -/
def WatchPc.listsYet : WatchPc → ℕ
  | checked => 1
  | _ => 0

/-- When a thread that waits or sleeps goes on by itself. -/
def WatchPc.wakeAt : WatchPc → Nanos
  | waiting deadline => deadline
  | settling wakeAt => wakeAt
  | _ => 0

namespace Watch

/-- Who takes a step. -/
inductive Process
  | thread
  /-- The store, inside a call of `list`. -/
  | store
  | canceller
  deriving DecidableEq, Repr

/-- The actions of a process. The cancel of the host is a choice of its own: only its second statement
is owed. -/
def Process.owns : Process → WatchAct → Prop
  | thread, .run => True
  | store, .listed _ => True
  | canceller, .sendStop => True
  | _, _ => False

/-- Who moves the thread on. -/
def mover (pc : WatchPc) : Process := if pc = .listing then .store else .thread

/-- The wake that ends the thread. -/
def isStop : Wake → Bool
  | .stop => true
  | _ => false

/-- A wake of some kind stands in the channel. -/
def Marked (mark : Wake → Bool) (w : Watch) : Prop := ∃ x ∈ w.wakes, mark x = true

/-- What the thread has before it until it takes the first marked wake. -/
def left (mark : Wake → Bool) (w : Watch) : ℕ := 4 * w.wakes.findIdx mark + w.pc.stepsLeft

section Steps

variable {X : Externs} {w w' : Watch} {a : WatchAct}

/-- What the thread leaves alone. Once the flag is set it begins only the listing it had before it. -/
theorem next_frame (h : w.next X = some w') : w'.stop = w.stop ∧ w'.stopSent = w.stopSent ∧
    w'.clock = w.clock ∧
      (w.stop = true → w'.listings + w'.pc.listsYet ≤ w.listings + w.pc.listsYet) := by
  unfold next at h
  split at h
  all_goals
    first | (split_ifs at h <;> cases h) | cases h
    all_goals
      refine ⟨rfl, rfl, rfl, fun hstop => ?_⟩
      simp_all [WatchPc.listsYet]

/-- A statement takes the wake at the head of the channel, or brings the thread nearer to taking one. -/
theorem next_takes (h : w.next X = some w') :
    (∃ x, w.wakes = x :: w'.wakes ∧ w'.pc.stepsLeft ≤ 2 ∧ (x = .stop → w'.pc = .stopped)) ∨
      w'.wakes = w.wakes ∧
        (w'.pc = .stopped ∨ w'.pc.stepsLeft < w.pc.stepsLeft ∨ w.wakes = []) := by
  unfold next at h
  split at h
  all_goals
    first | (split_ifs at h <;> cases h) | cases h
    all_goals simp_all [WatchPc.stepsLeft]

/-- With a marked wake in the channel, a statement takes it or brings the thread nearer to it. -/
theorem thread_lowers {mark : Wake → Bool} (h : w.next X = some w') (hm : w.Marked mark)
    (hpc : w'.pc ≠ .stopped) : (∃ x, w.wakes = x :: w'.wakes ∧ mark x = true) ∨
      w'.Marked mark ∧ w'.left mark < w.left mark := by
  obtain ⟨y, hy, hmark⟩ := hm
  rcases next_takes h with ⟨x, hwakes, hsteps, -⟩ | ⟨hwakes, hstopped | hsteps | hnil⟩
  · cases hx : mark x with
    | true => exact .inl ⟨x, hwakes, hx⟩
    | false =>
      rw [hwakes] at hy
      have hrest : y ∈ w'.wakes :=
        (List.mem_cons.mp hy).resolve_left (by rintro rfl; simp [hx] at hmark)
      refine .inr ⟨⟨y, hrest, hmark⟩, ?_⟩
      rw [left, left, hwakes, List.findIdx_cons, hx]
      simp only [cond_false]
      omega
  · exact absurd hstopped hpc
  · refine .inr ⟨⟨y, hwakes ▸ hy, hmark⟩, ?_⟩
    rw [left, left, hwakes]
    omega
  · rw [hnil] at hy
    cases hy

theorem listed_frame {result : Except String (List ObjectEntry)} (h : Steps X w (.listed result) w') :
    w.pc = .listing ∧ w'.pc = .arming ∧ w'.wakes = w.wakes ∧ w'.stop = w.stop ∧
      w'.stopSent = w.stopSent ∧ w'.clock = w.clock ∧ w'.listings = w.listings := by
  obtain ⟨hpc, ⟨listing, -, rfl⟩ | rfl⟩ := listed_cases h
  · unfold polled
    dsimp only
    split_ifs <;> exact ⟨hpc, rfl, rfl, rfl, rfl, rfl, rfl⟩
  · exact ⟨hpc, rfl, rfl, rfl, rfl, rfl, rfl⟩

theorem env_frame (ha : a.isEnv = true) (h : Steps X w a w') :
    w'.pc = w.pc ∧ w'.listings = w.listings ∧ w.clock ≤ w'.clock ∧
      (∃ more, w'.wakes = w.wakes ++ more) ∧ (w.stop = true → w'.stop = true) ∧
      (w'.stopSent = w.stopSent ∨ w.stop = true ∧ w'.stopSent = true ∧ .stop ∈ w'.wakes) := by
  cases a with
  | run | listed => cases ha
  | ack position =>
    simp only [Steps, step, Option.ite_none_left_eq_some] at h
    obtain ⟨-, h⟩ := h
    cases h
    exact ⟨rfl, rfl, le_refl _, ⟨_, rfl⟩, id, .inl rfl⟩
  | wake =>
    cases h
    exact ⟨rfl, rfl, le_refl _, ⟨_, rfl⟩, id, .inl rfl⟩
  | cancel =>
    simp only [Steps, step, Option.ite_none_left_eq_some] at h
    obtain ⟨-, h⟩ := h
    cases h
    exact ⟨rfl, rfl, le_refl _, ⟨[], (List.append_nil _).symm⟩, fun _ => rfl, .inl rfl⟩
  | sendStop =>
    simp only [Steps, step, Option.ite_none_right_eq_some, Bool.and_eq_true] at h
    obtain ⟨⟨hflag, -⟩, h⟩ := h
    cases h
    exact ⟨rfl, rfl, le_refl _, ⟨_, rfl⟩, id, .inr ⟨hflag, rfl, by simp⟩⟩
  | tick d =>
    cases h
    exact ⟨rfl, rfl, Nat.le_add_right _ _, ⟨[], (List.append_nil _).symm⟩, id, .inl rfl⟩

theorem clock_of_step (h : Steps X w a w') : w.clock ≤ w'.clock := by
  cases hae : a.isEnv with
  | true => exact (env_frame hae h).2.2.1
  | false =>
    cases a with
    | run => exact (next_frame h).2.2.1.symm.le
    | listed result => exact (listed_frame h).2.2.2.2.2.1.symm.le
    | ack | wake | cancel | sendStop | tick => cases hae

/-- Once the flag is set it stays, and no listing begins but the one the thread had before it. -/
theorem flag_of_step (hstop : w.stop = true) (h : Steps X w a w') :
    w'.stop = true ∧ w'.listings + w'.pc.listsYet ≤ w.listings + w.pc.listsYet := by
  cases hae : a.isEnv with
  | true =>
    obtain ⟨hpc, hlistings, -, -, hflag, -⟩ := env_frame hae h
    exact ⟨hflag hstop, by rw [hpc, hlistings]⟩
  | false =>
    cases a with
    | run =>
      obtain ⟨hflag, -, -, hlistings⟩ := next_frame h
      exact ⟨hflag.trans hstop, hlistings hstop⟩
    | listed result =>
      obtain ⟨-, hpc, -, hflag, -, -, hlistings⟩ := listed_frame h
      exact ⟨hflag.trans hstop, by rw [hpc, hlistings]; exact Nat.le_add_right _ _⟩
    | ack | wake | cancel | sendStop | tick => cases hae

/-! ## A wake is taken -/

theorem act_of_mover {pc : WatchPc} (h : (mover pc).owns a) : a.isEnv = false := by
  unfold mover at h
  split_ifs at h <;> cases a <;> first | rfl | exact absurd h id

/-- The thread can go on, unless it waits for a time; inside a call the store can. -/
theorem mover_enabled (hpc : w.pc ≠ .stopped) (hwake : w.pc.wakeAt ≤ w.clock) :
    Enabled (Steps X) (mover w.pc).owns w := by
  cases hat : w.pc with
  | listing => exact ⟨.listed (.error ""), _, trivial, by simp only [Steps, step, hat, if_true]; rfl⟩
  | stopped => exact absurd hat hpc
  | top =>
    by_cases hstop : w.stop = true
    · exact ⟨.run, _, trivial, by simp only [Steps, step, next, hat, hstop, if_true]; rfl⟩
    · exact ⟨.run, _, trivial, by simp only [Steps, step, next, hat, hstop]; rfl⟩
  | checked =>
    by_cases hroom : w.inv.hasRoom = true
    · exact ⟨.run, _, trivial, by simp only [Steps, step, next, hat, hroom, if_true]; rfl⟩
    · exact ⟨.run, _, trivial, by simp only [Steps, step, next, hat, hroom]; rfl⟩
  | arming =>
    by_cases hfits : instantHolds X.lastInstant (w.clock + w.inv.options.interval) = true
    · exact ⟨.run, _, trivial, by simp only [Steps, step, next, hat, hfits, if_true]; rfl⟩
    · exact ⟨.run, _, trivial, by simp only [Steps, step, next, hat, hfits]; rfl⟩
  | settling wakeAt =>
    have htime : wakeAt ≤ w.clock := by rwa [hat] at hwake
    exact ⟨.run, _, trivial, by simp only [Steps, step, next, hat, htime, if_true]; rfl⟩
  | waiting deadline =>
    have htime : deadline ≤ w.clock := by rwa [hat] at hwake
    cases hwakes : w.wakes with
    | nil =>
      exact ⟨.run, _, trivial, by simp only [Steps, step, next, hat, hwakes, htime, if_true]; rfl⟩
    | cons x rest =>
      cases x <;> exact ⟨.run, _, trivial, by simp only [Steps, step, next, hat, hwakes]; rfl⟩
  | draining | settled =>
    cases hwakes : w.wakes with
    | nil => exact ⟨.run, _, trivial, by simp only [Steps, step, next, hat, hwakes]; rfl⟩
    | cons x rest =>
      cases x <;> exact ⟨.run, _, trivial, by simp only [Steps, step, next, hat, hwakes]; rfl⟩

end Steps

section Taken

variable {X : Externs} {r : Execution (Steps X)} {I P Q : Watch → Prop}

/-- **A wake is taken.** In a fair execution whose clock goes on, the thread takes the first marked wake
of the channel, however much is sent behind it, unless the goal is reached before. -/
theorem leadsTo_of_mark (mark : Wake → Bool) (hI : ∀ n, I (r.state n))
    (hfair : ∀ p : Process, r.Fair p.owns) (hclock : r.Diverges clock)
    (hmarked : ∀ w, P w → w.Marked mark ∧ w.pc ≠ .stopped)
    (hstep : ∀ w a w', I w → P w → Steps X w a w' →
      Q w' ∨ P w' ∧ ¬ ∃ x, w.wakes = x :: w'.wakes ∧ mark x = true) : r.LeadsTo P Q := by
  refine Execution.leadsTo_of_timed_rank hI Process.owns hfair (fun _ _ _ => clock_of_step)
    (fun w => mover w.pc) (left mark) (fun w => w.pc.wakeAt) (fun w _ => hclock _) ?_ ?_
  · exact fun w _ hw hwake => mover_enabled (hmarked w hw).2 hwake
  · intro w a w' hi hw hs
    refine (hstep w a w' hi hw hs).imp_right fun ⟨hw', hnot⟩ => ⟨hw', ?_⟩
    obtain ⟨hm, -⟩ := hmarked w hw
    cases hae : a.isEnv with
    | true =>
      obtain ⟨hpc, -, -, ⟨more, hwakes⟩, -⟩ := env_frame hae hs
      have hleft : w'.left mark = w.left mark := by
        rw [left, left, hpc, hwakes, List.findIdx_append, if_pos (List.findIdx_lt_length.mpr hm)]
      exact .inr ⟨⟨hleft, by rw [hpc], by rw [hpc]⟩, fun hown => by
        rw [act_of_mover hown] at hae
        cases hae⟩
    | false =>
      left
      cases a with
      | run => exact ((thread_lowers hs hm (hmarked w' hw').2).resolve_left hnot).2
      | listed result =>
        obtain ⟨hpc, hpc', hwakes, -⟩ := listed_frame hs
        rw [left, left, hpc, hpc', hwakes]
        exact Nat.lt_succ_self _
      | ack | wake | cancel | sendStop | tick => cases hae

end Taken

/-! ## The stop that was sent -/

section Ends

variable {X : Externs} {w w' : Watch} {a : WatchAct} {r : Execution (Steps X)}

/-- A stop that was sent stays in the channel until the thread ends. -/
def StopKept (w : Watch) : Prop := w.stopSent = true → .stop ∈ w.wakes ∨ w.pc = .stopped

theorem stopped_of_take (hwakes : w.wakes = .stop :: w'.wakes) (h : Steps X w a w') :
    w'.pc = .stopped := by
  have hlength : w.wakes.length = w'.wakes.length + 1 := by rw [hwakes, List.length_cons]
  cases hae : a.isEnv with
  | true =>
    obtain ⟨-, -, -, ⟨more, hmore⟩, -⟩ := env_frame hae h
    rw [hmore, List.length_append] at hlength
    omega
  | false =>
    cases a with
    | run =>
      rcases next_takes h with ⟨x, hx, -, hstop⟩ | ⟨hsame, -⟩
      · rw [hwakes] at hx
        exact hstop (List.cons.inj hx).1.symm
      · rw [hsame] at hlength
        omega
    | listed result =>
      rw [(listed_frame h).2.2.1] at hlength
      omega
    | ack | wake | cancel | sendStop | tick => cases hae

theorem stop_stays (hmem : .stop ∈ w.wakes) (h : Steps X w a w') :
    .stop ∈ w'.wakes ∨ w'.pc = .stopped := by
  cases hae : a.isEnv with
  | true =>
    obtain ⟨-, -, -, ⟨more, hwakes⟩, -⟩ := env_frame hae h
    rw [hwakes]
    exact .inl (List.mem_append_left more hmem)
  | false =>
    cases a with
    | run =>
      rcases next_takes h with ⟨x, hwakes, -, hstop⟩ | ⟨hwakes, -⟩
      · rw [hwakes] at hmem
        exact (List.mem_cons.mp hmem).symm.imp_right fun hx => hstop hx.symm
      · exact .inl (hwakes ▸ hmem)
    | listed result =>
      rw [(listed_frame h).2.2.1]
      exact .inl hmem
    | ack | wake | cancel | sendStop | tick => cases hae

theorem stopped_stays (hpc : w.pc = .stopped) (h : Steps X w a w') : w'.pc = .stopped := by
  cases hae : a.isEnv with
  | true => exact (env_frame hae h).1.trans hpc
  | false =>
    cases a with
    | run => simp [Steps, step, next, hpc] at h
    | listed result => simp [Steps, step, hpc] at h
    | ack | wake | cancel | sendStop | tick => cases hae

theorem stopKept_step (hi : w.StopKept) (h : Steps X w a w') : w'.StopKept := by
  intro hsent
  by_cases hold : w.stopSent = true
  · rcases hi hold with hmem | hpc
    · exact stop_stays hmem h
    · exact .inr (stopped_stays hpc h)
  · -- the stop is sent by this very step
    cases hae : a.isEnv with
    | true =>
      obtain ⟨-, -, -, -, -, hsame | ⟨-, -, hmem⟩⟩ := env_frame hae h
      · exact absurd (hsame.symm.trans hsent) hold
      · exact .inl hmem
    | false =>
      cases a with
      | run => exact absurd ((next_frame h).2.1.symm.trans hsent) hold
      | listed result => exact absurd ((listed_frame h).2.2.2.2.1.symm.trans hsent) hold
      | ack | wake | cancel | sendStop | tick => cases hae

theorem stop_is_sent (hfair : r.Fair (Process.owns .canceller)) :
    r.LeadsTo (fun w => w.stop = true ∧ w.stopSent = false) fun w => w.stopSent = true := by
  refine Execution.leadsTo_of_fair (I := fun _ => True) (fun _ => trivial) hfair ?_ ?_ ?_
  · rintro w - ⟨hstop, hsent⟩
    exact ⟨.sendStop, _, trivial, by simp only [Steps, step, hstop, hsent]; rfl⟩
  · rintro w a w' - ⟨hstop, hsent⟩ ha hs
    cases a with
    | sendStop =>
      simp only [Steps, step, hstop, hsent] at hs
      cases hs
      rfl
    | run | listed | ack | wake | cancel | tick => exact absurd ha id
  · rintro w a w' - ⟨hstop, hsent⟩ - hs
    cases hsent' : w'.stopSent with
    | true => exact .inl rfl
    | false => exact .inr ⟨(flag_of_step hstop hs).1, rfl⟩

theorem stop_ends (hfair : ∀ p : Process, r.Fair p.owns) (hclock : r.Diverges clock) :
    r.LeadsTo (fun w => .stop ∈ w.wakes ∧ w.pc ≠ .stopped) fun w => w.pc = .stopped := by
  refine leadsTo_of_mark isStop (I := fun _ => True) (fun _ => trivial) hfair hclock
    (fun w hw => ⟨⟨.stop, hw.1, rfl⟩, hw.2⟩) fun w a w' _ hw hs => ?_
  by_cases hpc : w'.pc = .stopped
  · exact .inl hpc
  · refine .inr ⟨⟨(stop_stays hw.1 hs).resolve_right hpc, hpc⟩, ?_⟩
    rintro ⟨x, hwakes, hx⟩
    cases x with
    | stop => exact hpc (stopped_of_take hwakes hs)
    | ack | changed => cases hx

/-- **A cancelled watch ends.** In every fair execution of a watch in which the store answers and the
clock goes on, the thread ends once the stop flag is set, however many wakes are sent, and no listing
begins, but for the one the thread had before it when it had read the flag already. -/
theorem cancel_ends {eventSource : Bool} {options : InventoryOptions} {resume : Option Json}
    {hooks : InventoryHooks} {now : Nanos} {w₀ : Watch}
    (h₀ : spawnInventoryWatchHooked X eventSource options resume hooks now = .ok w₀)
    (hr : Reach (Steps X) anyStep w₀ (r.state 0)) (hfair : ∀ p : Process, r.Fair p.owns)
    (hclock : r.Diverges clock) {n : ℕ} (hn : (r.state n).stop = true) :
    ∃ m, n ≤ m ∧ (r.state m).pc = .stopped ∧
      ∀ k, n ≤ k → (r.state k).listings ≤
        (r.state n).listings + if (r.state n).pc = .checked then 1 else 0 := by
  have hkept : ∀ m, (r.state m).StopKept := by
    refine Execution.always (I := StopKept) ?_ fun _ _ _ => stopKept_step
    refine hr.invariant (I := StopKept) (fun hsent => ?_) fun _ _ _ hu _ hs => stopKept_step hu hs
    rw [(fresh_of_spawn h₀).2.2.2.1] at hsent
    cases hsent
  have hends : r.LeadsTo (fun w => w.stop = true) fun w => w.pc = .stopped := by
    refine Execution.LeadsTo.trans (Q := fun w => w.stopSent = true) (fun n hn => ?_) fun n hn => ?_
    · cases hsent : (r.state n).stopSent with
      | true => exact ⟨n, le_refl n, hsent⟩
      | false => exact stop_is_sent (hfair _) n ⟨hn, hsent⟩
    · by_cases hpc : (r.state n).pc = .stopped
      · exact ⟨n, le_refl n, hpc⟩
      · exact stop_ends hfair hclock n ⟨(hkept n hn).resolve_right hpc, hpc⟩
  obtain ⟨m, hm, hpc⟩ := hends n hn
  refine ⟨m, hm, hpc, fun k hk => ?_⟩
  have hyet : (r.state n).pc.listsYet = if (r.state n).pc = .checked then 1 else 0 := by
    cases (r.state n).pc <;> rfl
  rw [← hyet]
  suffices h : (r.state k).stop = true ∧ (r.state k).listings + (r.state k).pc.listsYet ≤
      (r.state n).listings + (r.state n).pc.listsYet from (Nat.le_add_right _ _).trans h.2
  induction k, hk using Nat.le_induction with
  | base => exact ⟨hn, le_refl _⟩
  | succ k hk ih =>
    obtain ⟨hstop, hlistings⟩ := flag_of_step ih.1 (r.next k)
    exact ⟨hstop, hlistings.trans ih.2⟩

end Ends

/-- Cancelled after it read the flag and before it lists. -/
def cancelChecked : List WatchAct :=
  [.run, .wake, .cancel, .sendStop, .run, .listed (.ok []), .run, .run, .tick changeSettle, .run, .run]

/-- The thread ended and its cancel has nothing left to send. -/
def Ended (w : Watch) : Prop := w.pc = .stopped ∧ w.stopSent = true

theorem not_enabled_of_ended {X : Externs} {w : Watch} (h : w.Ended) (p : Process) :
    ¬ Enabled (Steps X) p.owns w := by
  obtain ⟨hpc, hsent⟩ := h
  rintro ⟨a, w', ha, hs⟩
  cases a with
  | run => simp [Steps, step, next, hpc] at hs
  | listed => simp [Steps, step, hpc] at hs
  | sendStop => simp [Steps, step, hsent] at hs
  | ack | wake | cancel | tick => cases p <;> exact ha

theorem cancel_ends_cancelChecked :
    ∃ (r : Execution (Steps plainExterns)) (m : ℕ), 3 ≤ m ∧ (r.state 3).listings = 0 ∧
      (r.state 5).listings = 1 ∧ (r.state m).pc = .stopped ∧ ∀ k, 3 ≤ k → (r.state k).listings ≤ 1 := by
  obtain ⟨w, hw, hrest⟩ := end_of_run
    (r := cancelChecked.foldlM (step plainExterns) (plainWatch 2))
    (P := fun w => w.pc = .stopped ∧ w.stopSent = true) (by decide +kernel)
  obtain ⟨u, hu, hstop, hpc, hnone⟩ := end_of_run
    (r := (cancelChecked.take 3).foldlM (step plainExterns) (plainWatch 2))
    (P := fun w => w.stop = true ∧ w.pc = .checked ∧ w.listings = 0) (by decide +kernel)
  obtain ⟨v, hv, hone⟩ := end_of_run
    (r := (cancelChecked.take 5).foldlM (step plainExterns) (plainWatch 2))
    (P := fun w => w.listings = 1) (by decide +kernel)
  obtain ⟨r, hbegins, hfair, hclock⟩ := exists_fair_execution (f := step plainExterns)
    (.tick 1) (g := fun w => { w with clock := w.clock + 1 }) (fun _ => rfl) hw clock Ended hrest
    (fun _ hu => ⟨hu, Nat.lt_succ_self _⟩) (fun _ p hu => not_enabled_of_ended hu p)
  have hthree : r.state 3 = u := hbegins 3 u (by decide) hu
  have hfive : r.state 5 = v := hbegins 5 v (by decide) hv
  have hreach : Reach (Steps plainExterns) anyStep (plainWatch 2) (r.state 0) := by
    rw [hbegins 0 _ (Nat.zero_le _) rfl]
    exact .refl
  have hspawn : spawnInventoryWatchHooked plainExterns true
      { Inventory.plainOptions with maxInFlight := 2 } none {} 0 = .ok (plainWatch 2) := rfl
  obtain ⟨m, hm, hend, hmost⟩ := cancel_ends hspawn hreach hfair hclock (n := 3)
    (by rw [hthree]; exact hstop)
  rw [hthree, hpc, hnone] at hmost
  exact ⟨r, m, hm, hthree ▸ hnone, hfive ▸ hone, hend, hmost⟩

end Watch

end McpgSdk
