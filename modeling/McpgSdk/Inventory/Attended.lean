import McpgSdk.Inventory.Stops
import McpgSdk.Inventory.Resource

/-!
# An attended watch

What the store, the host and the plugin owe a watch for it to get anywhere, and what follows for its
window: every change in it is settled or dropped, and once it is empty the store is listed again.

* `Attended`: what a watch counts on;
* `heard`, `leaves`, `cleared`: an acknowledgement that was sent is heard, so no change stays in the
  window for good;
* `lists_again`, `relists`: an empty window is followed by a listing.
-/

set_option autoImplicit false

namespace McpgSdk

/-- The step sends an acknowledgement or a notification. -/
def WatchAct.Sends : WatchAct → Prop
  | ack _ | wake => True
  | _ => False

/-- The statements before the thread next lists, when its channel is empty. -/
def WatchPc.toList : WatchPc → ℕ
  | listing | stopped => 0
  | checked => 1
  | top => 2
  | waiting _ | settled => 3
  | arming | settling _ | draining _ _ => 4

namespace Watch

/-- When the thread works out how long to wait, `Instant` can hold the deadline. -/
def DeadlineFits (X : Externs) (w : Watch) : Prop :=
  w.pc = .arming → instantHolds X.lastInstant (w.clock + w.inv.options.interval) = true

/-- A watch of an event source that reports removals and is not cancelled, over a store that holds still
in the end. -/
structure Attended (X : Externs) (store : Digests) (since : ℕ) (r : Execution (Steps X)) : Prop where
  spawned : Spawned X (r.state 0)
  reported : (r.state 0).inv.quietRemovals = false
  running : ∀ n, (r.state n).stop = false
  fits : ∀ n, (r.state n).DeadlineFits X
  fair : ∀ p : Process, r.Fair p.owns
  clock : r.Diverges Watch.clock
  /-- From then on every listing shows the store. -/
  still : ∀ n listing, since ≤ n → r.act n = .listed (.ok listing) →
    Inventory.target X listing = store
  /-- The store does not fail to list for ever. -/
  answers : ∀ n, (∀ m, n ≤ m → ∃ k result, m ≤ k ∧ r.act k = .listed result) →
    ∃ k listing, n ≤ k ∧ r.act k = .listed (.ok listing)
  /-- From then on no listing arrives so late that a change in the window has expired. -/
  prompt : ∀ n listing, since ≤ n → r.act n = .listed (.ok listing) →
    ∀ p ∈ (r.state n).inv.pending,
      (r.state n).clock - p.atTime < (r.state n).inv.options.ackTimeout
  /-- The host acknowledges every change that is put in the window, or a listing arrives after the
  change's timeout. -/
  acked : ∀ n, ∀ p ∈ (r.state (n + 1)).inv.pending, p ∉ (r.state n).inv.pending →
    (∃ k position, n < k ∧ r.act k = .ack position ∧ Inventory.positionSeq position = some p.seq) ∨
      ∃ k listing, n < k ∧ r.act k = .listed (.ok listing) ∧
        (r.state k).inv.options.ackTimeout ≤ (r.state k).clock - p.atTime
  /-- When nothing more is emitted, nothing more is sent. -/
  silent : ∀ n, (∀ m, n ≤ m → (r.state m).emitted = (r.state n).emitted) →
    ∃ k, ∀ m, k ≤ m → ¬ (r.act m).Sends

/-! ## Steps -/

section Steps

variable {X : Externs} {w w' : Watch} {a : WatchAct}

theorem inv_cases (hsource : w.eventSource = true) (h : Steps X w a w') :
    (w'.inv = w.inv ∧ w'.emitted = w.emitted) ∨
      (∃ position, w'.inv = w.inv.acknowledged position ∧ w'.emitted = w.emitted) ∨
      ∃ listing, a = .listed (.ok listing) ∧ w'.inv = (w.inv.pollCore X w.clock listing).1 ∧
        w'.emitted = w.emitted ++ texts X (w.inv.poll X w.clock listing).2 := by
  cases hae : a.isEnv with
  | true =>
    obtain ⟨hinv, -, -, -, hemitted, -⟩ := env_sent hae h
    exact .inl ⟨hinv, hemitted⟩
  | false =>
    cases a with
    | run =>
      obtain ⟨⟨hinv, -⟩ | ⟨position, hinv, -⟩, -, -, hemitted⟩ := next_heard h
      · exact .inl ⟨hinv, hemitted⟩
      · exact .inr (.inl ⟨position, hinv, hemitted⟩)
    | listed result =>
      obtain ⟨-, ⟨listing, rfl, hinv, hemitted⟩ | ⟨-, hinv, hemitted⟩⟩ := listed_polls hsource h
      · exact .inr (.inr ⟨listing, rfl, hinv, hemitted⟩)
      · exact .inl ⟨hinv, hemitted⟩
    | ack | wake | cancel | sendStop | tick => cases hae

/-- A change in the window was there before, or a listing showed it. -/
theorem came (hw : w.inv.WF) (hsource : w.eventSource = true) (h : Steps X w a w') {p : Pending}
    (hp : p ∈ w'.inv.pending) : p ∈ w.inv.pending ∨
      ∃ listing, a = .listed (.ok listing) ∧ p.digest = (Inventory.target X listing)[p.key]? ∧
        w.inv.confirmed[p.key]? ≠ (Inventory.target X listing)[p.key]? := by
  rcases inv_cases hsource h with ⟨hinv, -⟩ | ⟨position, hinv, -⟩ | ⟨listing, hact, hinv, -⟩
  · exact .inl (hinv ▸ hp)
  · left
    rw [hinv] at hp
    cases ha : w.inv.acknowledges position with
    | none => rwa [Inventory.acknowledged_of_none ha] at hp
    | some q => exact ((Inventory.mem_pending_acknowledged ha).mp hp).1
  · rw [hinv] at hp
    rcases Inventory.mem_pending_pollCore.mp hp with hp | ⟨e, he, rfl⟩
    · exact .inl (Inventory.mem_live hp)
    · obtain ⟨hdigest, hne, -⟩ := Inventory.spec_of_emitted hw he
      exact .inr ⟨listing, hact, hdigest, hne⟩

/-- The thread has not ended, and nothing ends it. -/
def Going (w : Watch) : Prop := .stop ∉ w.wakes ∧ w.pc ≠ .stopped

theorem stopped_of_next (hfits : w.DeadlineFits X) (h : w.next X = some w')
    (hpc : w'.pc = .stopped) : w.stop = true ∨ .stop ∈ w.wakes := by
  unfold DeadlineFits at hfits
  unfold next at h
  split at h
  all_goals
    first | (split_ifs at h <;> cases h) | cases h
    all_goals simp_all

theorem going_step (hstop : w.stop = false) (hfits : w.DeadlineFits X) (hg : w.Going)
    (h : Steps X w a w') : w'.Going := by
  obtain ⟨hwakes, hpc⟩ := hg
  cases a with
  | run =>
    refine ⟨fun hmem => hwakes ?_, fun hend => ?_⟩
    · rcases next_takes h with ⟨x, hx, -⟩ | ⟨hsame, -⟩
      · rw [hx]
        exact List.mem_cons_of_mem x hmem
      · exact hsame ▸ hmem
    · rcases stopped_of_next hfits h hend with hflag | hmem
      · rw [hstop] at hflag
        cases hflag
      · exact hwakes hmem
  | listed result =>
    obtain ⟨-, hpc', hwakes', -⟩ := listed_frame h
    exact ⟨hwakes' ▸ hwakes, by rw [hpc']; simp⟩
  | ack position =>
    simp only [Steps, step, Option.ite_none_left_eq_some] at h
    obtain ⟨-, h⟩ := h
    cases h
    exact ⟨by simpa using hwakes, hpc⟩
  | wake =>
    cases h
    exact ⟨by simpa using hwakes, hpc⟩
  | cancel =>
    simp only [Steps, step, Option.ite_none_left_eq_some] at h
    obtain ⟨-, h⟩ := h
    cases h
    exact ⟨hwakes, hpc⟩
  | sendStop => simp [Steps, step, hstop] at h
  | tick d =>
    cases h
    exact ⟨hwakes, hpc⟩

theorem heard_of_take {position : Json} (hsource : w.eventSource = true)
    (hwakes : w.wakes = .ack position :: w'.wakes) (h : Steps X w a w') :
    w'.inv = w.inv.acknowledged position := by
  have hunheard : w.unheard = position :: w'.unheard := by
    rw [unheard, unheard, hwakes]
    rfl
  have hlength := congrArg List.length hunheard
  cases hae : a.isEnv with
  | true =>
    rw [(env_sent hae h).2.1, List.length_cons, List.length_append] at hlength
    omega
  | false =>
    cases a with
    | run =>
      obtain ⟨⟨-, hsame⟩ | ⟨other, hinv, hother⟩, -⟩ := next_heard h
      · rw [hsame, List.length_cons] at hlength
        omega
      · rw [hunheard] at hother
        rw [hinv, (List.cons.inj hother).1]
    | listed result =>
      rw [(listed_polls hsource h).1.1, List.length_cons] at hlength
      omega
    | ack | wake | cancel | sendStop | tick => cases hae

theorem not_mem_acknowledged {inv : Inventory} {position : Json} {p : Pending} (hp : p ∈ inv.pending)
    (hseq : Inventory.positionSeq position = some p.seq) : p ∉ (inv.acknowledged position).pending := by
  obtain ⟨q, hq, hqseq⟩ := Inventory.exists_acknowledges hseq ⟨p, hp, rfl⟩
  exact fun hmem => ((Inventory.mem_pending_acknowledged hq).mp hmem).2.ne' hqseq.symm

end Steps

/-! ## No change stays in the window for good -/

/-- The wake acknowledges the change of that number. -/
def acksSeq (seq : ℕ) : Wake → Bool
  | .ack position => Inventory.positionSeq position == some seq
  | _ => false

theorem since_of_le {X : Externs} {r : Execution (Steps X)} {m n : ℕ} (h : m ≤ n) :
    (r.state m).Since (r.state n) := by
  induction n, h using Nat.le_induction with
  | base => exact ⟨le_refl _, Inventory.Since.refl _⟩
  | succ n _ ih => exact since_step ih (r.next n)

namespace Attended

section

variable {X : Externs} {store : Digests} {since : ℕ} {r : Execution (Steps X)}

theorem wf (h : Attended X store since r) (n : ℕ) :
    (r.state n).inv.WF ∧ (r.state n).eventSource = true :=
  wf_of_reach h.spawned (Execution.reach .refl n)

theorem options_eq (_ : Attended X store since r) (n : ℕ) :
    (r.state n).inv.options = (r.state 0).inv.options :=
  (since_of_le (Nat.zero_le n)).2.options

theorem reports (h : Attended X store since r) (n : ℕ) : (r.state n).inv.quietRemovals = false :=
  (since_of_le (Nat.zero_le n)).2.quiet.trans h.reported

theorem going (h : Attended X store since r) (n : ℕ) : (r.state n).Going := by
  induction n with
  | zero =>
    obtain ⟨options, resume, hooks, now, hspawn⟩ := h.spawned
    obtain ⟨hpc, hwakes, -⟩ := fresh_of_spawn hspawn
    exact ⟨by simp [hwakes], by simp [hpc]⟩
  | succ n ih => exact going_step (h.running n) (h.fits n) ih (r.next n)

/-- An acknowledgement that was sent is heard, unless its change left the window before. -/
theorem heard (h : Attended X store since r) (p : Pending) :
    r.LeadsTo (fun w => p ∈ w.inv.pending ∧ w.Marked (acksSeq p.seq) ∧ w.pc ≠ .stopped)
      fun w => p ∉ w.inv.pending := by
  refine leadsTo_of_mark (acksSeq p.seq)
    (I := fun w => w.eventSource = true ∧ w.stop = false ∧ w.DeadlineFits X ∧ w.Going)
    (fun n => ⟨(h.wf n).2, h.running n, h.fits n, h.going n⟩) h.fair h.clock (fun w hw => hw.2) ?_
  rintro w a w' ⟨hsource, hstop, hfits, hgoing⟩ ⟨hp, ⟨y, hy, hmark⟩, -⟩ hs
  by_cases hp' : p ∈ w'.inv.pending
  · -- the change is still there, so its acknowledgement was not taken
    have hnot : ¬ ∃ x, w.wakes = x :: w'.wakes ∧ acksSeq p.seq x = true := by
      rintro ⟨x, hwakes, hx⟩
      cases x with
      | ack position =>
        rw [heard_of_take hsource hwakes hs] at hp'
        exact not_mem_acknowledged hp (eq_of_beq hx) hp'
      | changed | stop => cases hx
    refine .inr ⟨⟨hp', ⟨y, ?_, hmark⟩, (going_step hstop hfits hgoing hs).2⟩, hnot⟩
    cases hae : a.isEnv with
    | true =>
      obtain ⟨-, -, -, ⟨more, hwakes⟩, -⟩ := env_frame hae hs
      rw [hwakes]
      exact List.mem_append_left more hy
    | false =>
      cases a with
      | run =>
        rcases next_takes hs with ⟨x, hwakes, -⟩ | ⟨hwakes, -⟩
        · rw [hwakes] at hy
          exact (List.mem_cons.mp hy).resolve_left fun hyx => hnot ⟨x, hwakes, hyx ▸ hmark⟩
        · exact hwakes ▸ hy
      | listed result => exact (listed_frame hs).2.2.1 ▸ hy
      | ack | wake | cancel | sendStop | tick => cases hae
  · exact .inl hp'

theorem put (h : Attended X store since r) {n : ℕ} {p : Pending} (hp : p ∈ (r.state n).inv.pending) :
    ∃ m, m < n ∧ p ∉ (r.state m).inv.pending ∧ ∀ k, m < k → k ≤ n → p ∈ (r.state k).inv.pending := by
  induction n with
  | zero =>
    rw [h.spawned.started.1.pending] at hp
    cases hp
  | succ n ih =>
    by_cases hn : p ∈ (r.state n).inv.pending
    · obtain ⟨m, hm, hnot, hall⟩ := ih hn
      refine ⟨m, Nat.lt_succ_of_lt hm, hnot, fun k hk hle => ?_⟩
      rcases Nat.le_succ_iff.mp hle with hle | rfl
      · exact hall k hk hle
      · exact hp
    · exact ⟨n, Nat.lt_succ_self n, hn, fun k hk hle => by rwa [show k = n + 1 by omega]⟩

theorem polls (h : Attended X store since r) {n : ℕ} {listing : List ObjectEntry}
    (hact : r.act n = .listed (.ok listing)) :
    (r.state (n + 1)).inv = ((r.state n).inv.pollCore X (r.state n).clock listing).1 ∧
      (r.state (n + 1)).emitted = (r.state n).emitted ++
        texts X ((r.state n).inv.poll X (r.state n).clock listing).2 := by
  have hs := r.next n
  rw [hact] at hs
  obtain ⟨-, ⟨other, heq, hinv, hemitted⟩ | ⟨⟨message, heq⟩, -⟩⟩ := listed_polls (h.wf n).2 hs
  · cases heq
    exact ⟨hinv, hemitted⟩
  · cases heq

/-- **No change stays in the window for good.** -/
theorem leaves (h : Attended X store since r) {n : ℕ} {p : Pending}
    (hp : p ∈ (r.state n).inv.pending) : ∃ m, n ≤ m ∧ p ∉ (r.state m).inv.pending := by
  obtain ⟨m, hm, hnot, hall⟩ := h.put hp
  have hafter : ∀ k, m < k → p ∉ (r.state k).inv.pending →
      ∃ m, n ≤ m ∧ p ∉ (r.state m).inv.pending := by
    intro k hk hgone
    rcases Nat.lt_or_ge n k with hlt | hge
    · exact ⟨k, hlt.le, hgone⟩
    · exact absurd (hall k hk hge) hgone
  rcases h.acked m p (hall (m + 1) (Nat.lt_succ_self m) hm) hnot with
    ⟨k, position, hk, hack, hseq⟩ | ⟨k, listing, hk, hact, htimeout⟩
  · by_cases hpk : p ∈ (r.state k).inv.pending
    · -- it is in the window when its acknowledgement is sent, and leaves when it is heard
      have hs := r.next k
      rw [hack] at hs
      obtain ⟨hinv, -⟩ := env_sent rfl hs
      have hmark : (r.state (k + 1)).Marked (acksSeq p.seq) := by
        simp only [Steps, step, Option.ite_none_left_eq_some] at hs
        obtain ⟨-, hs⟩ := hs
        rw [← Option.some.inj hs]
        exact ⟨.ack position, by simp, by simp [acksSeq, hseq]⟩
      obtain ⟨j, hj, hgone⟩ := h.heard p (k + 1) ⟨hinv ▸ hpk, hmark, (h.going (k + 1)).2⟩
      exact hafter j (by omega) hgone
    · exact hafter k hk hpk
  · by_cases hpk : p ∈ (r.state k).inv.pending
    · refine hafter (k + 1) (Nat.lt_succ_of_lt hk) fun hp' => ?_
      rw [(h.polls hact).1] at hp'
      rcases Inventory.window_poll hp' with hlive | hnew
      · exact absurd htimeout (Nat.not_le.mpr (of_decide_eq_true (List.mem_filter.mp hlive).2))
      · exact absurd ((h.wf k).1.below p hpk) (Nat.not_lt.mpr hnew)
    · exact hafter k hk hpk

/-- What left the window does not come back. -/
theorem gone (h : Attended X store since r) {m n k : ℕ} {p : Pending} (hp : p ∈ (r.state m).inv.pending)
    (hmn : m ≤ n) (hgone : p ∉ (r.state n).inv.pending) (hk : n ≤ k) :
    p ∉ (r.state k).inv.pending := by
  intro hpk
  have hlt : p.seq < (r.state n).inv.nextSeq :=
    ((h.wf m).1.below p hp).trans_le (since_of_le hmn).2.seq
  exact hgone ((since_of_le hk).2.window p hpk hlt)

/-- **The window is cleared**: in the end it holds only changes that came after a time. -/
theorem cleared (h : Attended X store since r) (n : ℕ) :
    ∃ m, n ≤ m ∧ ∀ k, m ≤ k → ∀ p ∈ (r.state k).inv.pending, (r.state n).inv.nextSeq ≤ p.seq := by
  have hall : ∀ window : List Pending, (∀ p ∈ window, p ∈ (r.state n).inv.pending) →
      ∃ m, n ≤ m ∧ ∀ p ∈ window, p ∉ (r.state m).inv.pending := by
    intro window hwindow
    induction window with
    | nil => exact ⟨n, le_refl n, nofun⟩
    | cons p window ih =>
      obtain ⟨m, hm, hrest⟩ := ih fun q hq => hwindow q (List.mem_cons_of_mem p hq)
      have hp := hwindow p List.mem_cons_self
      obtain ⟨m', hm', hgone⟩ := h.leaves hp
      refine ⟨max m m', hm.trans (le_max_left m m'), fun q hq => ?_⟩
      rcases List.mem_cons.mp hq with rfl | hq
      · exact h.gone hp hm' hgone (le_max_right m m')
      · exact h.gone (hwindow q (List.mem_cons_of_mem p hq)) hm (hrest q hq) (le_max_left m m')
  obtain ⟨m, hm, hgone⟩ := hall _ fun p hp => hp
  refine ⟨m, hm, fun k hk p hp => ?_⟩
  by_contra hlt
  have hold := (since_of_le (hm.trans hk)).2.window p hp (Nat.lt_of_not_le hlt)
  exact h.gone hold hm (hgone p hold) hk hp

end

end Attended

/-! ## An empty window is followed by a listing -/

section Lists

variable {X : Externs} {w w' : Watch} {a : WatchAct} {r : Execution (Steps X)}

/-- The thread is at work and its window has room. -/
structure Open (X : Externs) (w : Watch) : Prop where
  running : w.stop = false
  fits : w.DeadlineFits X
  going : w.Going
  room : w.inv.hasRoom = true

theorem next_nears (ho : w.Open X) (h : w.next X = some w') :
    4 * w'.wakes.length + w'.pc.toList < 4 * w.wakes.length + w.pc.toList := by
  obtain ⟨hstop, hfits, ⟨hwakes, hpc⟩, hroom⟩ := ho
  unfold DeadlineFits at hfits
  unfold next at h
  split at h
  all_goals
    first | (split_ifs at h <;> cases h) | cases h
    all_goals simp_all [WatchPc.toList]
  all_goals omega

theorem listing_returns {n : ℕ} (hfair : r.Fair (Process.owns .store))
    (hpc : (r.state n).pc = .listing) : ∃ k result, n ≤ k ∧ r.act k = .listed result := by
  by_contra hnone
  have hnot : ∀ k, n ≤ k → ∀ result, r.act k ≠ .listed result :=
    fun k hk result hact => hnone ⟨k, result, hk, hact⟩
  have hstays : ∀ k, n ≤ k → (r.state k).pc = .listing := by
    intro k hk
    induction k, hk using Nat.le_induction with
    | base => exact hpc
    | succ k hk ih =>
      have hs := r.next k
      cases hact : r.act k with
      | run =>
        rw [hact] at hs
        simp [Steps, step, next, ih] at hs
      | listed result => exact absurd hact (hnot k hk result)
      | ack | wake | cancel | sendStop | tick =>
        rw [hact] at hs
        exact (env_frame rfl hs).1.trans ih
  obtain ⟨k, hk, hown⟩ := hfair n fun k hk =>
    ⟨.listed (.error ""), _, trivial, by simp only [Steps, step, hstays k hk, if_true]; rfl⟩
  cases hact : r.act k with
  | listed result => exact hnot k hk result hact
  | run | ack | wake | cancel | sendStop | tick =>
    rw [hact] at hown
    exact hown

/-- **The store is listed again**: while the window has room and nothing is sent. -/
theorem lists_again {n : ℕ} (hfair : ∀ p : Process, r.Fair p.owns) (hclock : r.Diverges clock)
    (hopen : ∀ m, n ≤ m → (r.state m).Open X) (hquiet : ∀ m, n ≤ m → ¬ (r.act m).Sends) {m : ℕ}
    (hm : n ≤ m) : ∃ k result, m ≤ k ∧ r.act k = .listed result := by
  have hnears : (r.after (fun a => ¬ a.Sends) n hquiet).LeadsTo (fun w => w.pc ≠ .listing)
      fun w => w.pc = .listing := by
    refine Execution.leadsTo_of_timed_rank (I := Open X) (fun m => hopen _ (Nat.le_add_right n m))
      Process.owns (fun p => (hfair p).after hquiet) (fun _ _ _ hs => clock_of_step hs.1)
      (fun w => mover w.pc) (fun w => 4 * w.wakes.length + w.pc.toList) (fun w => w.pc.wakeAt)
      (fun w _ => hclock.after hquiet (fun _ _ _ => clock_of_step) _) ?_ ?_
    · intro w ho hw hwake
      obtain ⟨a, w', hown, hs⟩ := mover_enabled (X := X) ho.going.2 hwake
      exact ⟨a, w', hown, hs, by have := act_of_mover hown; cases a <;> first | exact id | cases this⟩
    · rintro w a w' ho hw ⟨hs, hsends⟩
      by_cases hpc : w'.pc = .listing
      · exact .inl hpc
      · refine .inr ⟨hpc, ?_⟩
        cases a with
        | run => exact .inl (next_nears ho hs)
        | listed result => exact absurd (listed_frame hs).1 hw
        | ack | wake => exact absurd trivial hsends
        | sendStop => simp [Steps, step, ho.running] at hs
        | cancel =>
          simp only [Steps, step, Option.ite_none_left_eq_some] at hs
          obtain ⟨-, hs⟩ := hs
          cases hs
          exact .inr ⟨⟨rfl, rfl, rfl⟩, fun hown => by cases act_of_mover hown⟩
        | tick d =>
          cases hs
          exact .inr ⟨⟨rfl, rfl, rfl⟩, fun hown => by cases act_of_mover hown⟩
  obtain ⟨k, hk, hpc⟩ : ∃ k, m ≤ k ∧ (r.state k).pc = .listing := by
    by_cases hpc : (r.state m).pc = .listing
    · exact ⟨m, le_refl m, hpc⟩
    · have hat : n + (m - n) = m := by omega
      obtain ⟨k, hk, hlisting⟩ := hnears (m - n) (show (r.state (n + (m - n))).pc ≠ _ by rwa [hat])
      exact ⟨n + k, by omega, hlisting⟩
  obtain ⟨j, result, hj, hlisted⟩ := listing_returns (hfair .store) hpc
  exact ⟨j, result, hk.trans hj, hlisted⟩

end Lists

namespace Attended

section

variable {X : Externs} {store : Digests} {since : ℕ} {r : Execution (Steps X)}

theorem one_le_window (h : Attended X store since r) (n : ℕ) :
    1 ≤ (r.state n).inv.options.maxInFlight := by
  obtain ⟨options, resume, hooks, now, hspawn⟩ := h.spawned
  obtain ⟨hvalid, -, hoptions, -⟩ := spawn_eq_ok hspawn
  rw [h.options_eq, hoptions]
  exact one_le_maxInFlight hvalid

/-- **An empty window is followed by a listing.** -/
theorem relists (h : Attended X store since r) {n : ℕ}
    (hempty : ∀ m, n ≤ m → (r.state m).inv.pending = []) :
    ∃ k listing, n ≤ k ∧ r.act k = .listed (.ok listing) := by
  by_contra hnone
  -- without a listing nothing is emitted, so in the end nothing is sent and the thread gets to list
  have hemitted : ∀ m, n ≤ m → (r.state m).emitted = (r.state n).emitted := by
    intro m hm
    induction m, hm using Nat.le_induction with
    | base => rfl
    | succ m hm ih =>
      rcases inv_cases (h.wf m).2 (r.next m) with ⟨-, hsame⟩ | ⟨-, -, hsame⟩ | ⟨listing, hact, -⟩
      · exact hsame.trans ih
      · exact hsame.trans ih
      · exact absurd ⟨m, listing, hm, hact⟩ hnone
  obtain ⟨k, hk⟩ := h.silent n hemitted
  have hopen : ∀ m, max n k ≤ m → (r.state m).Open X := by
    intro m hm
    refine ⟨h.running m, h.fits m, h.going m, decide_eq_true ?_⟩
    rw [hempty m ((le_max_left n k).trans hm)]
    exact h.one_le_window m
  have hquiet : ∀ m, max n k ≤ m → ¬ (r.act m).Sends := fun m hm => hk m ((le_max_right n k).trans hm)
  obtain ⟨j, listing, hj, hact⟩ := h.answers (max n k) fun m hm =>
    lists_again h.fair h.clock hopen hquiet hm
  exact hnone ⟨j, listing, (le_max_left n k).trans hj, hact⟩

end

end Attended

end Watch

end McpgSdk
