import McpgSdk.Watch.Diffing
import McpgSdk.Lib.Fair

/-!
# The thread of a polling watch

A polling watch runs its loop on a thread of its own: it looks at the stop flag, polls, emits, and
sleeps in slices so that a cancel need not wait for the interval. `cancel_polling_watch` sets the flag
and joins the thread; it may do so between any two statements.

* `next`, `sleepInterruptible`, `cancelNext`, `step`: the thread, its sleep, the cancel and their steps;
* `Follows`: what was emitted, and what is left of the change at hand, is what the loop emits for the
  polls that returned;
* **`polling_follows`**: the thread emits what the loop emits, and nothing once the cancel returned;
* **`polls_spaced`**: two polls are never closer than the interval, nor than a quarter of a second;
* **`cancel_polling_returns`**: in every fair execution the cancel returns, and what begins after it is
  at most one poll or one slice of sleep, by a thread that had read the flag before.
-/

set_option autoImplicit false

namespace McpgSdk

namespace Diffing

/-- Floor on the poll cadence. -/
def pollFloor : Nanos := millis 250

/-- The longest a thread sleeps without looking at the stop flag. -/
def sleepSlice : Nanos := millis 200

/-- What a polling watch is spawned with. -/
structure PollConfig (S : Type) extends DiffingWatch S where
  interval : Nanos

/-- The interval, clamped up to the floor. -/
def PollConfig.total {S : Type} (c : PollConfig S) : Nanos := max c.interval pollFloor

/-- Where the thread stands. -/
inductive PollPc (S : Type)
  /-- Before the flag is read, at the head of the loop. -/
  | checking
  /-- The flag was read at the head of the loop, and was not set. -/
  | checked
  /-- Inside `poll`. -/
  | polling
  /-- Emitting; `state` is remembered afterwards. -/
  | emitting (state : Option S) (texts : List String)
  /-- In `sleep_interruptible`, at the head of its loop. -/
  | sleeping (elapsed : Nanos)
  /-- In `sleep_interruptible`; the flag was read and was not set. -/
  | drowsy (elapsed : Nanos)
  /-- In a slice of sleep. -/
  | napping (elapsed wakeAt : Nanos)
  | done

/-- The texts of the change at hand that are still to be emitted. -/
def PollPc.toEmit {S : Type} : PollPc S → List String
  | emitting _ texts => texts
  | _ => []

/-- The polls the thread may still begin once the flag is set. -/
def PollPc.pollsYet {S : Type} : PollPc S → ℕ
  | checked => 1
  | _ => 0

/-- The slices of sleep the thread may still begin once the flag is set. -/
def PollPc.napsYet {S : Type} : PollPc S → ℕ
  | drowsy _ => 1
  | _ => 0

/-- The state that is about to be remembered. -/
def PollPc.state {S : Type} : PollPc S → Option (Option S)
  | emitting state _ => some state
  | _ => none

/-- Where `cancel_polling_watch` stands. -/
inductive PollCancel
  | idle
  /-- The flag is set; joining the thread. -/
  | joining
  | returned
  deriving DecidableEq, Repr

/-- A polling watch and what happened to it. -/
structure Polling (S : Type) where
  pc : PollPc S
  last : Option S
  stop : Bool
  cancel : PollCancel
  clock : Nanos
  /-- What the polls returned. -/
  results : List (PollResult S)
  /-- When each poll began. -/
  starts : List Nanos
  /-- When each slice of sleep began. -/
  naps : List Nanos
  emitted : List String

/-- A step of the thread, of what it polls, or of the host. -/
inductive PollAct (S : Type)
  | thread
  | polled (result : PollResult S)
  | cancel
  | tick (d : Nanos)

namespace Polling

variable {S : Type}

/-- A watch as it is spawned. -/
def start (now : Nanos) : Polling S := ⟨.checking, none, false, .idle, now, [], [], [], []⟩

/-- Sleep, waking early when the flag is set: the head of the loop. -/
def sleepInterruptible (total elapsed : Nanos) (p : Polling S) : Polling S :=
  if elapsed < total then
    if p.stop then { p with pc := .checking } else { p with pc := .drowsy elapsed }
  else { p with pc := .checking }

/-- The rest of that loop: a slice of sleep. -/
def beginNap (total elapsed : Nanos) (p : Polling S) : Polling S :=
  let nap := min sleepSlice (total - elapsed)
  { p with pc := .napping (elapsed + nap) (p.clock + nap), naps := p.naps ++ [p.clock] }

/-- The thread's next statement; none while it sleeps or is inside `poll`. -/
def next (c : PollConfig S) (p : Polling S) : Option (Polling S) :=
  match p.pc with
  | .checking => if p.stop then some { p with pc := .done } else some { p with pc := .checked }
  | .checked => some { p with pc := .polling, starts := p.starts ++ [p.clock] }
  | .polling => none
  | .emitting state [] => some { p with pc := .sleeping 0, last := state }
  | .emitting state (text :: rest) =>
    some { p with pc := .emitting state rest, emitted := p.emitted ++ [text] }
  | .sleeping elapsed => some (p.sleepInterruptible c.total elapsed)
  | .drowsy elapsed => some (p.beginNap c.total elapsed)
  | .napping elapsed wakeAt =>
    if wakeAt ≤ p.clock then some { p with pc := .sleeping elapsed } else none
  | .done => none

/-- The next statement of `cancel_polling_watch`; none while it joins the thread. -/
def cancelNext (p : Polling S) : Option (Polling S) :=
  match p.cancel with
  | .idle => some { p with cancel := .joining, stop := true }
  | .joining => if p.pc matches .done then some { p with cancel := .returned } else none
  | .returned => none

variable [BEq S]

/-- `poll` returns. -/
def pollReturns (X : Externs) (c : PollConfig S) (p : Polling S) (result : PollResult S) :
    Option (Polling S) :=
  if p.pc matches .polling then
    some { p with
      pc := .emitting (tick X c.toDiffingWatch p.last result).1
        (tick X c.toDiffingWatch p.last result).2
      results := p.results ++ [result] }
  else none

/-- One step; none where it cannot be taken. -/
def step (X : Externs) (c : PollConfig S) (p : Polling S) : PollAct S → Option (Polling S)
  | .thread => p.next c
  | .polled result => p.pollReturns X c result
  | .cancel => p.cancelNext
  | .tick d => some { p with clock := p.clock + d }

/-- The step relation. -/
def Steps (X : Externs) (c : PollConfig S) (p : Polling S) (a : PollAct S) (p' : Polling S) : Prop :=
  p.step X c a = some p'

/-! ## What a step can do -/

/-- Every way a polling watch can move. -/
inductive Moves (X : Externs) (c : PollConfig S) (p : Polling S) : PollAct S → Polling S → Prop
  | quit (hpc : p.pc = .checking) (hstop : p.stop = true) : Moves X c p .thread { p with pc := .done }
  | check (hpc : p.pc = .checking) (hstop : p.stop = false) :
      Moves X c p .thread { p with pc := .checked }
  | poll (hpc : p.pc = .checked) :
      Moves X c p .thread { p with pc := .polling, starts := p.starts ++ [p.clock] }
  | told {result : PollResult S} (hpc : p.pc = .polling) : Moves X c p (.polled result) { p with
      pc := .emitting (tick X c.toDiffingWatch p.last result).1
        (tick X c.toDiffingWatch p.last result).2
      results := p.results ++ [result] }
  | emit {state : Option S} {text : String} {rest : List String}
      (hpc : p.pc = .emitting state (text :: rest)) :
      Moves X c p .thread { p with pc := .emitting state rest, emitted := p.emitted ++ [text] }
  | remember {state : Option S} (hpc : p.pc = .emitting state []) :
      Moves X c p .thread { p with pc := .sleeping 0, last := state }
  /-- Back to the head of the loop: the interval is over, or the flag is set. -/
  | awake {elapsed : Nanos} (hpc : p.pc = .sleeping elapsed)
      (hover : p.stop = true ∨ c.total ≤ elapsed) : Moves X c p .thread { p with pc := .checking }
  | tire {elapsed : Nanos} (hpc : p.pc = .sleeping elapsed) (hstop : p.stop = false) :
      Moves X c p .thread { p with pc := .drowsy elapsed }
  | nap {elapsed nap : Nanos} (hpc : p.pc = .drowsy elapsed) (hnap : nap ≤ sleepSlice) :
      Moves X c p .thread
        { p with pc := .napping (elapsed + nap) (p.clock + nap), naps := p.naps ++ [p.clock] }
  | wake {elapsed wakeAt : Nanos} (hpc : p.pc = .napping elapsed wakeAt) (htime : wakeAt ≤ p.clock) :
      Moves X c p .thread { p with pc := .sleeping elapsed }
  | cancel (hcancel : p.cancel = .idle) :
      Moves X c p .cancel { p with cancel := .joining, stop := true }
  | join (hcancel : p.cancel = .joining) (hpc : p.pc = .done) :
      Moves X c p .cancel { p with cancel := .returned }
  | tick {d : Nanos} : Moves X c p (.tick d) { p with clock := p.clock + d }

section Inversion

variable {X : Externs} {c : PollConfig S} {p p' : Polling S} {a : PollAct S}

theorem moves_of_next (h : p.next c = some p') : Moves X c p .thread p' := by
  cases hpc : p.pc with
  | checking =>
    simp only [next, hpc] at h
    split_ifs at h with hstop <;> cases h
    · exact .quit hpc hstop
    · exact .check hpc (Bool.eq_false_iff.mpr hstop)
  | checked =>
    simp only [next, hpc] at h
    cases h
    exact .poll hpc
  | polling => simp [next, hpc] at h
  | emitting state texts =>
    cases texts <;> simp only [next, hpc] at h <;> cases h
    · exact .remember hpc
    · exact .emit hpc
  | sleeping elapsed =>
    simp only [next, hpc, sleepInterruptible] at h
    split_ifs at h with hlt hstop <;> cases h
    · exact .awake hpc (.inl hstop)
    · exact .tire hpc (Bool.eq_false_iff.mpr hstop)
    · exact .awake hpc (.inr (not_lt.mp hlt))
  | drowsy elapsed =>
    simp only [next, hpc, beginNap] at h
    cases h
    exact .nap hpc (min_le_left _ _)
  | napping elapsed wakeAt =>
    simp only [next, hpc, Option.ite_none_right_eq_some] at h
    obtain ⟨htime, h⟩ := h
    cases h
    exact .wake hpc htime
  | done => simp [next, hpc] at h

/-- **A step is one of the moves.** -/
theorem moves_of_step (h : Steps X c p a p') : Moves X c p a p' := by
  cases a with
  | thread => exact moves_of_next h
  | polled result =>
    simp only [Steps, step, pollReturns, Option.ite_none_right_eq_some] at h
    obtain ⟨hpc, h⟩ := h
    cases h
    exact .told (by split at hpc <;> simp_all)
  | cancel =>
    cases hc : p.cancel with
    | idle =>
      simp only [Steps, step, cancelNext, hc] at h
      cases h
      exact .cancel hc
    | joining =>
      simp only [Steps, step, cancelNext, hc, Option.ite_none_right_eq_some] at h
      obtain ⟨hpc, h⟩ := h
      cases h
      exact .join hc (by split at hpc <;> simp_all)
    | returned => simp [Steps, step, cancelNext, hc] at h
  | tick d =>
    cases h
    exact .tick

end Inversion

/-! ## The thread follows the loop -/

section Follows

variable {X : Externs} {c : PollConfig S} {p p' : Polling S} {a : PollAct S} {now : Nanos}

/-- The state remembered after some polls. -/
def remembered (X : Externs) (w : DiffingWatch S) (results : List (PollResult S)) : Option S :=
  results.foldl (fun last result => (Diffing.tick X w last result).1) none

theorem loop_concat (X : Externs) (w : DiffingWatch S) (last : Option S)
    (results : List (PollResult S)) (result : PollResult S) :
    loop X w last ((results ++ [result]).map .polled) = loop X w last (results.map .polled) ++
      (Diffing.tick X w (results.foldl (fun last r => (Diffing.tick X w last r).1) last) result).2 := by
  induction results generalizing last with
  | nil => simp [loop]
  | cons r results ih =>
    simp only [List.cons_append, List.map_cons, loop, List.foldl_cons, List.append_assoc]
    rw [ih]

/-- What was emitted, and what is left of the change at hand, is what the loop emits for the polls that
returned; and the thread remembers what the loop does. -/
def Follows (X : Externs) (c : PollConfig S) (p : Polling S) : Prop :=
  p.emitted ++ p.pc.toEmit = loop X c.toDiffingWatch none (p.results.map .polled) ∧
    (p.pc.state.getD p.last) = remembered X c.toDiffingWatch p.results

theorem follows_step (hi : p.Follows X c) (h : Moves X c p a p') : p'.Follows X c := by
  obtain ⟨hemitted, hlast⟩ := hi
  cases h with
  | @told result hpc =>
    rw [hpc] at hemitted hlast
    replace hlast : p.last = remembered X c.toDiffingWatch p.results := hlast
    replace hemitted : p.emitted = loop X c.toDiffingWatch none (p.results.map .polled) := by
      rw [← hemitted]
      exact (List.append_nil _).symm
    constructor
    · rw [loop_concat, ← hemitted]
      show p.emitted ++ (Diffing.tick X c.toDiffingWatch p.last result).2 = _
      rw [hlast]
      rfl
    · rw [remembered, List.foldl_append]
      show (Diffing.tick X c.toDiffingWatch p.last result).1 = _
      rw [hlast]
      rfl
  | emit hpc =>
    rw [hpc] at hemitted hlast
    exact ⟨by rw [← hemitted]; exact List.append_assoc _ _ _, hlast⟩
  | remember hpc | quit hpc | check hpc | poll hpc | awake hpc | tire hpc | nap hpc | wake hpc =>
    rw [hpc] at hemitted hlast
    exact ⟨hemitted, hlast⟩
  | cancel | join | tick => exact ⟨hemitted, hlast⟩

theorem follows_of_reach (hr : Reach (Steps X c) anyStep (start now) p) : p.Follows X c :=
  hr.invariant (I := Follows X c) ⟨rfl, rfl⟩ fun _ _ _ hu _ hs => follows_step hu (moves_of_step hs)

theorem done_of_returned (hr : Reach (Steps X c) anyStep (start now) p) (hc : p.cancel = .returned) :
    p.pc = .done := by
  refine hr.invariant (I := fun p => p.cancel = .returned → p.pc = .done) nofun ?_ hc
  intro u b v hu _ hs hv
  cases moves_of_step hs with
  | quit => rfl
  | check hpc | poll hpc | told hpc | emit hpc | remember hpc | awake hpc | tire hpc | nap hpc
  | wake hpc =>
    have hdone := hu hv
    rw [hpc] at hdone
    cases hdone
  | cancel => cases hv
  | join _ hpc => exact hpc
  | tick => exact hu hv

theorem frozen_of_done (hdone : p.pc = .done) (hr : Reach (Steps X c) anyStep p p') :
    p'.pc = .done ∧ p'.results = p.results ∧ p'.starts = p.starts ∧ p'.emitted = p.emitted := by
  refine hr.invariant (I := fun u => u.pc = .done ∧ u.results = p.results ∧ u.starts = p.starts ∧
    u.emitted = p.emitted) ⟨hdone, rfl, rfl, rfl⟩ ?_
  rintro u b v ⟨hpc, hframe⟩ - hs
  cases moves_of_step hs with
  | quit h | check h | poll h | told h | emit h | remember h | awake h | tire h | nap h | wake h =>
    rw [hpc] at h
    cases h
  | cancel | join | tick => exact ⟨hpc, hframe⟩

/-- **The thread follows the loop.** Whenever the host cancels, what a watch emitted so far is a
beginning of what the loop emits for the polls that returned, and all of it unless a change is being
emitted. Once the cancel returned it is all of it, and the watch polls and emits nothing more. -/
theorem polling_follows (hr : Reach (Steps X c) anyStep (start now) p) :
    p.emitted <+: spawnDiffingWatch X c.toDiffingWatch (p.results.map .polled) ∧
      (p.pc.toEmit = [] →
        p.emitted = spawnDiffingWatch X c.toDiffingWatch (p.results.map .polled)) ∧
      (p.cancel = .returned →
        p.emitted = spawnDiffingWatch X c.toDiffingWatch (p.results.map .polled) ∧
          ∀ p', Reach (Steps X c) anyStep p p' →
            p'.results = p.results ∧ p'.starts = p.starts ∧ p'.emitted = p.emitted) := by
  have hfollows := (follows_of_reach hr).1
  have hall : p.pc.toEmit = [] →
      p.emitted = spawnDiffingWatch X c.toDiffingWatch (p.results.map .polled) := by
    intro hnone
    rwa [hnone, List.append_nil] at hfollows
  refine ⟨⟨p.pc.toEmit, hfollows⟩, hall, fun hc => ?_⟩
  have hdone := done_of_returned hr hc
  exact ⟨hall (by rw [hdone]; rfl), fun p' hr' => (frozen_of_done hdone hr').2⟩

end Follows

/-! ## The cadence -/

section Cadence

variable {X : Externs} {c : PollConfig S} {p p' : Polling S} {a : PollAct S} {now : Nanos}

/-- What the thread has slept since a poll began is over on the clock, and it comes back to the head of
the loop only after the whole interval, or stopped. -/
def Slept (c : PollConfig S) (p : Polling S) (since : Nanos) : Prop :=
  match p.pc with
  | .checking => p.stop = true ∨ since + c.total ≤ p.clock
  | .checked => since + c.total ≤ p.clock
  | .polling | .emitting _ _ => since ≤ p.clock
  | .sleeping elapsed | .drowsy elapsed => since + elapsed ≤ p.clock
  | .napping elapsed wakeAt => since + elapsed ≤ wakeAt
  | .done => p.stop = true

/-- The polls so far keep the cadence. -/
structure Spaced (c : PollConfig S) (now : Nanos) (p : Polling S) : Prop where
  chain : p.starts.IsChain fun t t' => t + c.total ≤ t'
  slept : ∀ t ∈ p.starts.getLast?, Slept c p t
  count : now + (p.starts.length - 1) * c.total ≤ p.starts.getLast?.getD now
  past : ∀ t ∈ p.starts, t ≤ p.clock
  since : now ≤ p.clock

omit [BEq S] in
theorem Spaced.mono (hi : p.Spaced c now) (hstarts : p'.starts = p.starts)
    (hclock : p.clock ≤ p'.clock) (hslept : ∀ t, Slept c p t → Slept c p' t) : p'.Spaced c now where
  chain := by rw [hstarts]; exact hi.chain
  slept := by rw [hstarts]; exact fun t ht => hslept t (hi.slept t ht)
  count := by rw [hstarts]; exact hi.count
  past := by rw [hstarts]; exact fun t ht => (hi.past t ht).trans hclock
  since := hi.since.trans hclock

theorem spaced_step (hi : p.Spaced c now) (h : Moves X c p a p') : p'.Spaced c now := by
  cases h with
  | poll hpc =>
    have hlast : ∀ t ∈ p.starts.getLast?, t + c.total ≤ p.clock := by
      intro t ht
      have hslept := hi.slept t ht
      simp only [Slept, hpc] at hslept
      exact hslept
    have hgrown : now + p.starts.length * c.total ≤ p.clock := by
      cases hs : p.starts with
      | nil => simpa using hi.since
      | cons t₀ rest =>
        have hcount := hi.count
        have ht : p.starts.getLast? = some ((t₀ :: rest).getLast (List.cons_ne_nil t₀ rest)) := by
          rw [hs, List.getLast?_eq_some_getLast]
        have hat := hlast _ ht
        rw [ht, Option.getD_some, hs, List.length_cons, Nat.add_sub_cancel] at hcount
        rw [List.length_cons, Nat.succ_mul, ← Nat.add_assoc]
        exact (Nat.add_le_add_right hcount c.total).trans hat
    refine ⟨hi.chain.append (List.isChain_singleton _) fun t ht t' ht' => ?_, fun t ht => ?_, ?_,
      fun t ht => ?_, hi.since⟩
    · obtain rfl := Option.some.inj ht'
      exact hlast t ht
    · rw [List.getLast?_concat] at ht
      obtain rfl := Option.some.inj ht
      exact le_refl _
    · rw [List.getLast?_concat, List.length_append]
      exact hgrown
    · rcases List.mem_append.mp ht with ht | ht
      · exact hi.past t ht
      · exact (List.mem_singleton.mp ht).le
  | quit hpc hstop => exact hi.mono rfl (le_refl _) fun _ _ => hstop
  | check hpc hstop =>
    refine hi.mono rfl (le_refl _) fun t ht => ?_
    simp only [Slept, hpc, hstop] at ht ⊢
    exact ht.resolve_left nofun
  | told hpc | remember hpc | emit hpc | tire hpc =>
    refine hi.mono rfl (le_refl _) fun t ht => ?_
    simp only [Slept, hpc] at ht ⊢
    exact ht
  | @awake elapsed hpc hover =>
    refine hi.mono rfl (le_refl _) fun t ht => ?_
    simp only [Slept, hpc] at ht ⊢
    exact hover.imp_right fun hle => (Nat.add_le_add_left hle t).trans ht
  | @nap elapsed nap hpc hnap =>
    refine hi.mono rfl (le_refl _) fun t ht => ?_
    simp only [Slept, hpc] at ht ⊢
    rw [← Nat.add_assoc]
    exact Nat.add_le_add_right ht nap
  | wake hpc htime =>
    refine hi.mono rfl (le_refl _) fun t ht => ?_
    simp only [Slept, hpc] at ht ⊢
    exact ht.trans htime
  | cancel hc =>
    refine hi.mono rfl (le_refl _) fun t ht => ?_
    unfold Slept at ht ⊢
    split at ht <;> simp_all
  | join hc hpc => exact hi.mono rfl (le_refl _) fun _ ht => ht
  | tick =>
    refine hi.mono rfl (Nat.le_add_right _ _) fun t ht => ?_
    unfold Slept at ht ⊢
    cases hpc : p.pc <;> simp only [hpc] at ht ⊢
    · exact ht.imp_right fun hle => hle.trans (Nat.le_add_right _ _)
    all_goals first | exact ht | exact ht.trans (Nat.le_add_right _ _)

/-- **Polls are spaced.** Two polls of a watch never begin closer together than its interval, nor than
a quarter of a second, whatever they return and however long they take; so the backend is polled at
most once more than the whole intervals since the watch was spawned. -/
theorem polls_spaced (hr : Reach (Steps X c) anyStep (start now) p) :
    (p.starts.IsChain fun t t' => t + max c.interval (millis 250) ≤ t') ∧
      (p.starts.length - 1) * max c.interval (millis 250) ≤ p.clock - now := by
  have hi : p.Spaced c now := hr.invariant (I := Spaced c now)
    ⟨List.isChain_nil, nofun, by simp [start], nofun, le_refl now⟩
    fun _ _ _ hu _ hs => spaced_step hu (moves_of_step hs)
  refine ⟨hi.chain, Nat.le_sub_of_add_le' (hi.count.trans ?_)⟩
  cases ht : p.starts.getLast? with
  | none => exact hi.since
  | some t => exact hi.past t (List.mem_of_getLast? ht)

end Cadence

/-! ## The cancel returns -/

/-- Who takes a step. -/
inductive Process
  | thread
  /-- The backend, inside a call of `poll`. -/
  | backend
  | canceller
  deriving DecidableEq, Repr

/-- The actions of a process. -/
def Process.owns : Process → PollAct S → Prop
  | thread, .thread => True
  | backend, .polled _ => True
  | canceller, .cancel => True
  | _, _ => False

end Polling

namespace PollPc

variable {S : Type}

/-- Who moves the thread on. -/
def mover : PollPc S → Polling.Process
  | polling => .backend
  | _ => .thread

/-- How far a thread that is told to stop is from its end: a poll it is in may bring any number of
texts, so it counts for more than every statement. -/
def rank : PollPc S → ℕ ×ₗ ℕ
  | checked => toLex (2, 0)
  | polling => toLex (1, 0)
  | emitting _ texts => toLex (0, texts.length + 4)
  | drowsy _ => toLex (0, 4)
  | napping _ _ => toLex (0, 3)
  | sleeping _ => toLex (0, 2)
  | checking => toLex (0, 1)
  | done => toLex (0, 0)

/-- When a sleeping thread wakes by itself. -/
def wakeAt : PollPc S → Nanos
  | napping _ wakeAt => wakeAt
  | _ => 0

end PollPc

namespace Polling

section Returns

variable {S : Type} [BEq S] {X : Externs} {c : PollConfig S} {p p' : Polling S} {a : PollAct S}
  {now : Nanos}

theorem clock_of_step (h : Steps X c p a p') : p.clock ≤ p'.clock := by
  cases moves_of_step h with
  | tick => exact Nat.le_add_right _ _
  | _ => exact le_refl _

/-- Once the flag is set it stays, and no poll and no slice of sleep begins but the one the thread had
before it. -/
theorem flag_of_step (hstop : p.stop = true) (h : Steps X c p a p') : p'.stop = true ∧
    p'.starts.length + p'.pc.pollsYet ≤ p.starts.length + p.pc.pollsYet ∧
    p'.naps.length + p'.pc.napsYet ≤ p.naps.length + p.pc.napsYet := by
  cases moves_of_step h with
  | check _ hnot | tire _ hnot =>
    rw [hstop] at hnot
    cases hnot
  | poll hpc | nap hpc => simp [hstop, hpc, PollPc.pollsYet, PollPc.napsYet]
  | quit | told | emit | remember | awake | wake =>
    exact ⟨hstop, Nat.le_add_right _ _, Nat.le_add_right _ _⟩
  | cancel => exact ⟨rfl, le_refl _, le_refl _⟩
  | join | tick => exact ⟨hstop, le_refl _, le_refl _⟩

/-- A cancel has begun and the thread has not ended. -/
def Stopping (p : Polling S) : Prop := p.stop = true ∧ p.pc ≠ .done

/-- A thread that is told to stop stays where it is until it takes a statement, or its poll returns, and
that brings it nearer to its end. -/
theorem stopping_step (hp : p.Stopping) (h : Steps X c p a p') :
    ((p'.Stopping ∧ p'.pc = p.pc) ∧ ¬ p.pc.mover.owns a) ∨
      (p'.Stopping ∧ p'.pc.rank < p.pc.rank) ∨ p'.pc = .done := by
  have hstop := (flag_of_step hp.1 h).1
  cases moves_of_step h with
  | quit => exact .inr (.inr rfl)
  | check _ hnot | tire _ hnot =>
    rw [hp.1] at hnot
    cases hnot
  | poll hpc | told hpc =>
    refine .inr (.inl ⟨⟨hstop, nofun⟩, ?_⟩)
    rw [hpc]
    exact Prod.Lex.toLex_lt_toLex.mpr (.inl (Nat.lt_succ_self _))
  | emit hpc | remember hpc | awake hpc | nap hpc | wake hpc =>
    refine .inr (.inl ⟨⟨hstop, nofun⟩, ?_⟩)
    rw [hpc]
    exact Prod.Lex.toLex_lt_toLex.mpr (.inr ⟨rfl, by simp⟩)
  | cancel | join | tick =>
    refine .inl ⟨⟨⟨hstop, hp.2⟩, rfl⟩, ?_⟩
    cases p.pc <;> exact id

theorem mover_enabled (hp : p.Stopping) (hwake : p.pc.wakeAt ≤ p.clock) :
    Enabled (Steps X c) p.pc.mover.owns p := by
  cases hpc : p.pc with
  | checking =>
    exact ⟨.thread, _, trivial, by simp only [Steps, step, next, hpc, hp.1, if_true]; rfl⟩
  | polling =>
    exact ⟨.polled (.ok none), _, trivial, by simp only [Steps, step, pollReturns, hpc]; rfl⟩
  | emitting state texts =>
    cases texts <;> exact ⟨.thread, _, trivial, by simp only [Steps, step, next, hpc]; rfl⟩
  | checked | sleeping | drowsy =>
    exact ⟨.thread, _, trivial, by simp only [Steps, step, next, hpc]; rfl⟩
  | napping elapsed wakeAt =>
    have htime : wakeAt ≤ p.clock := by rwa [hpc] at hwake
    exact ⟨.thread, _, trivial, by simp only [Steps, step, next, hpc, htime, if_true]; rfl⟩
  | done => exact absurd hpc hp.2

variable {r : Execution (Steps X c)}

theorem stopping_ends (hfair : ∀ q : Process, r.Fair q.owns) (hclock : r.Diverges clock) :
    r.LeadsTo Stopping fun p => p.pc = .done := by
  refine Execution.leadsTo_of_timed_rank (I := fun _ => True) (fun _ => trivial) Process.owns hfair
    (fun _ _ _ => clock_of_step) (fun p => p.pc.mover) (fun p => p.pc.rank) (fun p => p.pc.wakeAt)
    (fun p _ => hclock _) (fun p _ hp hwake => mover_enabled hp hwake) ?_
  intro p a p' _ hp hs
  rcases stopping_step hp hs with ⟨⟨hp', hpc⟩, hown⟩ | hlow | hend
  · exact .inr ⟨hp', .inr ⟨by rw [hpc]; exact ⟨rfl, rfl, rfl⟩, hown⟩⟩
  · exact .inr ⟨hlow.1, .inl hlow.2⟩
  · exact .inl hend

theorem flag_of_reach (hr : Reach (Steps X c) anyStep (start now) p) (hc : p.cancel ≠ .idle) :
    p.stop = true := by
  refine hr.invariant (I := fun p => p.cancel ≠ .idle → p.stop = true) (fun h => absurd rfl h) ?_ hc
  intro u b v hu _ hs hv
  cases moves_of_step hs with
  | cancel => rfl
  | join hcancel => exact hu (by rw [hcancel]; nofun)
  | quit | check | poll | told | emit | remember | awake | tire | nap | wake | tick => exact hu hv

theorem nap_of_reach (hr : Reach (Steps X c) anyStep (start now) p) {e t : Nanos}
    (hpc : p.pc = .napping e t) : ∃ b ∈ p.naps.getLast?, t ≤ b + sleepSlice := by
  refine hr.invariant (I := fun p => ∀ e t, p.pc = .napping e t →
    ∃ b ∈ p.naps.getLast?, t ≤ b + sleepSlice) nofun ?_ e t hpc
  intro u b v hu _ hs e t hpc
  cases moves_of_step hs with
  | @nap elapsed nap _ hnap =>
    cases hpc
    exact ⟨u.clock, List.getLast?_concat, Nat.add_le_add_left hnap _⟩
  | quit | check | poll | told | emit | remember | awake | tire | wake => cases hpc
  | cancel | join | tick => exact hu e t hpc

theorem begun_of_step (hc : p.cancel ≠ .idle) (h : Steps X c p a p') : p'.cancel ≠ .idle := by
  cases moves_of_step h with
  | cancel | join => nofun
  | quit | check | poll | told | emit | remember | awake | tire | nap | wake | tick => exact hc

theorem begun_of_le {n m : ℕ} (hm : n ≤ m) (hn : (r.state n).cancel ≠ .idle) :
    (r.state m).cancel ≠ .idle := by
  induction m, hm using Nat.le_induction with
  | base => exact hn
  | succ m hm ih => exact begun_of_step ih (r.next m)

theorem thread_is_joined (hfair : r.Fair (Process.owns .canceller)) :
    r.LeadsTo (fun p => p.cancel ≠ .idle ∧ p.pc = .done) fun p => p.cancel = .returned := by
  have hjoin : r.LeadsTo (fun p => p.cancel = .joining ∧ p.pc = .done) fun p =>
      p.cancel = .returned := by
    refine Execution.leadsTo_of_fair (I := fun _ => True) (fun _ => trivial) hfair ?_ ?_ ?_
    · rintro p - ⟨hc, hpc⟩
      exact ⟨.cancel, _, trivial, by simp only [Steps, step, cancelNext, hc, hpc]; rfl⟩
    · rintro p a p' - ⟨hc, hpc⟩ ha hs
      cases moves_of_step hs with
      | cancel hidle =>
        rw [hc] at hidle
        cases hidle
      | join => rfl
      | quit | check | poll | told | emit | remember | awake | tire | nap | wake | tick =>
        exact absurd ha id
    · rintro p a p' - ⟨hc, hpc⟩ ha hs
      cases moves_of_step hs with
      | cancel | join => exact absurd trivial ha
      | tick => exact .inr ⟨hc, hpc⟩
      | quit h | check h | poll h | told h | emit h | remember h | awake h | tire h | nap h | wake h =>
        rw [hpc] at h
        cases h
  rintro n ⟨hn, hpc⟩
  cases hc : (r.state n).cancel with
  | idle => exact absurd hc hn
  | joining => exact hjoin n ⟨hc, hpc⟩
  | returned => exact ⟨n, le_refl n, hc⟩

/-- **The cancel returns.** In every fair execution in which the backend answers and the clock goes on,
`cancel_polling_watch` returns once it began. Once it has set the flag no poll and no slice of sleep
begins, but for the one the thread had before it when it had read the flag already; and no slice is for
more than 200 ms, however long the interval is. -/
theorem cancel_polling_returns (h₀ : Reach (Steps X c) anyStep (start now) (r.state 0))
    (hfair : ∀ q : Process, r.Fair q.owns) (hclock : r.Diverges clock) {n : ℕ}
    (hn : (r.state n).cancel ≠ .idle) :
    (∃ m, n ≤ m ∧ (r.state m).cancel = .returned) ∧ ∀ k, n ≤ k →
      (r.state k).starts.length ≤ (r.state n).starts.length + (r.state n).pc.pollsYet ∧
      (r.state k).naps.length ≤ (r.state n).naps.length + (r.state n).pc.napsYet ∧
      ∀ e t, (r.state k).pc = .napping e t →
        ∃ b ∈ (r.state k).naps.getLast?, t ≤ b + millis 200 := by
  have hreach := Execution.reach h₀
  have hends : r.LeadsTo (fun p => p.cancel ≠ .idle) fun p => p.cancel ≠ .idle ∧ p.pc = .done := by
    intro n hn
    by_cases hdone : (r.state n).pc = .done
    · exact ⟨n, le_refl n, hn, hdone⟩
    · obtain ⟨m, hm, hpc⟩ := stopping_ends hfair hclock n ⟨flag_of_reach (hreach n) hn, hdone⟩
      exact ⟨m, hm, begun_of_le hm hn, hpc⟩
  refine ⟨hends.trans (thread_is_joined (hfair _)) n hn, fun k hk => ?_⟩
  have hleft : (r.state k).stop = true ∧
      (r.state k).starts.length + (r.state k).pc.pollsYet ≤
        (r.state n).starts.length + (r.state n).pc.pollsYet ∧
      (r.state k).naps.length + (r.state k).pc.napsYet ≤
        (r.state n).naps.length + (r.state n).pc.napsYet := by
    induction k, hk using Nat.le_induction with
    | base => exact ⟨flag_of_reach (hreach n) hn, le_refl _, le_refl _⟩
    | succ k hk ih =>
      obtain ⟨hstop, hstarts, hnaps⟩ := flag_of_step ih.1 (r.next k)
      exact ⟨hstop, hstarts.trans ih.2.1, hnaps.trans ih.2.2⟩
  exact ⟨(Nat.le_add_right _ _).trans hleft.2.1, (Nat.le_add_right _ _).trans hleft.2.2,
    fun e t => nap_of_reach (hreach k)⟩

end Returns

/-! ## A watch cancelled in its sleep -/

/-- A resource watch with an interval of one second. -/
def everySecond : PollConfig String where
  eventSource := false
  diff _ _ := [{}]
  interval := millis 1000

/-- Two polls a second apart, and a cancel after the second, as the thread is about to sleep. -/
def cancelAsleep : List (PollAct String) :=
  [.thread, .thread, .polled (.ok (some "1")), .thread, .thread, .thread, .tick (millis 200),
    .thread, .thread, .thread, .tick (millis 200), .thread, .thread, .thread, .tick (millis 200),
    .thread, .thread, .thread, .tick (millis 200), .thread, .thread, .thread, .tick (millis 200),
    .thread, .thread, .thread, .thread, .polled (.ok (some "2")), .thread, .thread, .thread, .cancel,
    .thread, .tick (millis 200), .thread, .thread, .thread, .cancel]

theorem polling_follows_cancelAsleep :
    ∃ p : Polling String, cancelAsleep.foldlM (step plainExterns everySecond) (start 0) = some p ∧
      p.starts = [0, millis 1000] ∧ p.emitted.length = 1 ∧
      p.emitted = spawnDiffingWatch plainExterns everySecond.toDiffingWatch
        (p.results.map .polled) := by
  obtain ⟨p, hp, hstarts, hemitted, hreturned⟩ := end_of_run
    (r := cancelAsleep.foldlM (step plainExterns everySecond) (start 0))
    (P := fun p => p.starts = [0, millis 1000] ∧ p.emitted.length = 1 ∧ p.cancel = .returned)
    (by decide +kernel)
  have hr : Reach (Steps plainExterns everySecond) anyStep (start 0) p :=
    Reach.of_foldlM (fun _ _ _ hs => ⟨trivial, hs⟩) hp
  exact ⟨p, hp, hstarts, hemitted, ((polling_follows hr).2.2 hreturned).1⟩

theorem polls_spaced_cancelAsleep :
    ∃ p : Polling String, cancelAsleep.foldlM (step plainExterns everySecond) (start 0) = some p ∧
      p.starts.length = 2 ∧ p.starts.IsChain fun t t' => t + millis 1000 ≤ t' := by
  obtain ⟨p, hp, hlength⟩ := end_of_run
    (r := cancelAsleep.foldlM (step plainExterns everySecond) (start 0))
    (P := fun p => p.starts.length = 2) (by decide +kernel)
  have hr : Reach (Steps plainExterns everySecond) anyStep (start 0) p :=
    Reach.of_foldlM (fun _ _ _ hs => ⟨trivial, hs⟩) hp
  exact ⟨p, hp, hlength, (polls_spaced hr).1⟩

/-- The thread ended and its cancel returned. -/
def AtRest {S : Type} (p : Polling S) : Prop := p.pc = .done ∧ p.cancel = .returned

theorem not_enabled_of_atRest {S : Type} [BEq S] {X : Externs} {c : PollConfig S} {p : Polling S}
    (h : p.AtRest) (q : Process) : ¬ Enabled (Steps X c) q.owns p := by
  rintro ⟨a, p', ha, hs⟩
  obtain ⟨hpc, hcancel⟩ := h
  cases moves_of_step hs with
  | quit h | check h | poll h | told h | emit h | remember h | awake h | tire h | nap h | wake h =>
    rw [hpc] at h
    cases h
  | cancel h | join h =>
    rw [hcancel] at h
    cases h
  | tick => cases q <;> exact ha

theorem cancel_polling_returns_cancelAsleep :
    ∃ (r : Execution (Steps plainExterns everySecond)) (m : ℕ), 32 ≤ m ∧
      (r.state m).cancel = .returned ∧ (r.state 32).naps.length = 5 ∧ (r.state 33).naps.length = 6 ∧
      ∀ k, 32 ≤ k → (r.state k).starts.length ≤ 2 ∧ (r.state k).naps.length ≤ 6 := by
  obtain ⟨p, hp, hpc, hcancel⟩ := end_of_run
    (r := cancelAsleep.foldlM (step plainExterns everySecond) (start 0))
    (P := fun p => (p.pc matches .done) = true ∧ p.cancel = .returned) (by decide +kernel)
  obtain ⟨u, hu, hjoining, hpolls, hnaps, hpollsYet, hnapsYet⟩ := end_of_run
    (r := (cancelAsleep.take 32).foldlM (step plainExterns everySecond) (start 0))
    (P := fun p => p.cancel = .joining ∧ p.starts.length = 2 ∧ p.naps.length = 5 ∧
      p.pc.pollsYet = 0 ∧ p.pc.napsYet = 1) (by decide +kernel)
  obtain ⟨v, hv, hone⟩ := end_of_run
    (r := (cancelAsleep.take 33).foldlM (step plainExterns everySecond) (start 0))
    (P := fun p => p.naps.length = 6) (by decide +kernel)
  have hrest : p.AtRest := ⟨by split at hpc <;> simp_all, hcancel⟩
  obtain ⟨r, hbegins, hfair, hclock⟩ := exists_fair_execution (f := step plainExterns everySecond)
    (.tick 1) (g := fun p => { p with clock := p.clock + 1 }) (fun _ => rfl) hp clock AtRest hrest
    (fun _ hu => ⟨hu, Nat.lt_succ_self _⟩) (fun u q hu => not_enabled_of_atRest hu q)
  have hreach : Reach (Steps plainExterns everySecond) anyStep (start 0) (r.state 0) := by
    rw [hbegins 0 _ (Nat.zero_le _) rfl]
    exact .refl
  have hbegun : r.state 32 = u := hbegins 32 u (by decide) hu
  have hlater : r.state 33 = v := hbegins 33 v (by decide) hv
  obtain ⟨⟨m, hm, hreturned⟩, hmost⟩ := cancel_polling_returns hreach hfair hclock (n := 32)
    (by rw [hbegun, hjoining]; nofun)
  refine ⟨r, m, hm, hreturned, hbegun ▸ hnaps, hlater ▸ hone, fun k hk => ?_⟩
  obtain ⟨hstarts, hslices, -⟩ := hmost k hk
  rw [hbegun] at hstarts hslices
  omega

end Polling

end Diffing

end McpgSdk
