import McpgSdk.Inventory.Restart
import McpgSdk.Inventory.Stable

/-!
# Restarting any number of times

A process may end at any time: what it emitted and the host did not acknowledge is lost, and the next
one starts from the position the host stored. The snapshot of that position holds the confirmed listing
the event was emitted over with the event's own change, so it is the host's view exactly when no other
acknowledgement came between. A host gets that without knowing how the inventory works, if it
acknowledges the newest event only, or allows one change in flight, and does so while the change is in
the window: the inventory ignores what comes later, and the host cannot tell.

* `Recovery`, `Recovery.step`: a host, the running process and the position a next one starts from;
* `Careful`: the acknowledgements of such a host;
* `late_ack`: what comes of an acknowledgement out of the window;
* `Sound`: the view is the confirmed listing, and the snapshot of the newest event is the listing its
  acknowledgement will confirm; kept by every step (`sound_poll`, `sound_ack`, `sound_restart`);
* **`restarts_exact`**: however often the process ends, a next one can be started, reports a gap if it
  has no snapshot to start from, and otherwise reports what differs from the host's view.
-/

set_option autoImplicit false

namespace McpgSdk

open OrdMap

/-- An inventory whose process may end at any time, and its host. -/
structure Recovery where
  inv : Inventory
  view : View
  /-- What the running process emitted, in order. -/
  sent : List Emitted
  /-- The last event acknowledged; the host stores its position. -/
  stored : Option Emitted

/-- A step: a listing, the acknowledgement of an event, or the end of the process and the start of the
next, with a hook of its own. -/
inductive RecoveryAct
  | poll (now : Nanos) (listing : List ObjectEntry)
  | ack (seq : ℕ)
  | restart (hook : Option Describe)

namespace Recovery

/-- One step. The first listing of a silent start is the view's baseline: the host of a first start
has seen nothing before it, and that of a later one is told of a gap and looks for itself. An
acknowledgement is of an event of the running process; the host takes the change and stores the
position, whether or not the inventory still has the change in its window. -/
def step (X : Externs) (s : Recovery) : RecoveryAct → Option Recovery
  | .poll now listing =>
    let r := s.inv.pollCore X now listing
    some { s with
      inv := r.1
      view := if s.inv.baseline = .silent then look (Inventory.target X listing) else s.view
      sent := s.sent ++ r.2 }
  | .ack seq => do
    let e ← s.sent.find? fun e => e.seq == seq
    let position ← e.event.upstreamCursor
    some { s with
      inv := s.inv.acknowledged position
      view := Function.update s.view e.change.entry.key e.change.digest
      stored := some e }
  | .restart hook =>
    match Inventory.new X s.inv.options (s.stored.bind fun e => e.event.upstreamCursor) with
    | .ok inv => some { s with inv := { inv with describe := hook }, sent := [] }
    | .error _ => none

/-- The step relation. -/
def Steps (X : Externs) (s : Recovery) (a : RecoveryAct) (s' : Recovery) : Prop := s.step X a = some s'

/-- A host that has seen nothing, and the inventory of a first start. -/
def First (X : Externs) (s : Recovery) : Prop :=
  ∃ options hook inv, Inventory.new X options none = .ok inv ∧
    s = ⟨{ inv with describe := hook }, fun _ => none, [], none⟩

/-- The host acknowledges a change while it is in the window, and the newest event only, unless one
change at most is in flight. -/
def Careful (s : Recovery) : RecoveryAct → Prop
  | .ack seq => (∃ p ∈ s.inv.pending, p.seq = seq) ∧
      (s.inv.options.maxInFlight = 1 ∨ s.sent.getLast?.map Emitted.seq = some seq)
  | .poll .. | .restart _ => True

instance (s : Recovery) : (a : RecoveryAct) → Decidable (s.Careful a)
  | .ack _ => inferInstanceAs (Decidable (_ ∧ _))
  | .poll .. | .restart _ => isTrue trivial

/-! ## The invariant -/

/-- The view, the running process and the stored position belong together. -/
structure Sound (s : Recovery) : Prop where
  wf : s.inv.WF
  reported : s.inv.quietRemovals = false
  /-- The host knows what the inventory takes for known. -/
  agrees : s.inv.baseline ≠ .silent → s.view = look s.inv.confirmed
  written : ∀ e ∈ s.sent, e.event.upstreamCursor =
    some (Cursor.toValue ⟨cursorVersion, e.seq, e.snap⟩)
  ordered : (s.sent.map Emitted.seq).Pairwise (· < ·)
  below : ∀ e ∈ s.sent, e.seq < s.inv.nextSeq
  window : ∀ e ∈ s.sent, ∀ p ∈ s.inv.pending, p.seq = e.seq →
    p.key = e.change.entry.key ∧ p.digest = e.change.digest
  /-- The snapshot of the newest event is what its acknowledgement makes of the confirmed listing. -/
  newest : ∀ e, s.sent.getLast? = some e → (∃ p ∈ s.inv.pending, p.seq = e.seq) →
    ∀ m, e.snap = some m → m = patch s.inv.confirmed e.change.entry.key e.change.digest
  alone : s.inv.options.maxInFlight = 1 → ∀ p ∈ s.inv.pending,
    ∃ e, s.sent.getLast? = some e ∧ e.seq = p.seq
  stored : ∀ e, s.stored = some e →
    e.event.upstreamCursor = some (Cursor.toValue ⟨cursorVersion, e.seq, e.snap⟩) ∧
      ∀ m, e.snap = some m → s.view = look m
  /-- A process that waits for its first listing is the first, or will report a gap. -/
  awaited : s.inv.baseline = .silent → (s.stored = none ∧ s.inv.options.start = .now) ∨
    ∃ e, s.stored = some e ∧ e.snap = none ∧ s.inv.gap = true
  unstored : s.stored = none → s.inv.options.start = .existing → s.view = fun _ => none

section Steps

variable {X : Externs} {s s' : Recovery}

theorem sound_first (h : First X s) : s.Sound := by
  obtain ⟨options, hook, inv, hnew, rfl⟩ := h
  have hwf : ({ inv with describe := hook } : Inventory).WF :=
    Inventory.Started.wf (X := X) ⟨options, none, inv, hook, inv.quietRemovals, hnew, rfl⟩
  cases hnew
  refine ⟨hwf, rfl, fun _ => ?_, by simp, List.Pairwise.nil, by simp, by simp, by simp, ?_, by simp,
    fun hb => .inl ⟨rfl, ?_⟩, fun _ _ => rfl⟩
  · funext k
    simp [look, Inventory.fresh]
  · simp [Inventory.fresh]
  · cases hstart : options.start with
    | now => exact hstart
    | existing => simp [Inventory.fresh, hstart] at hb

theorem eq_of_seq {es : List Emitted} (h : (es.map Emitted.seq).Pairwise (· < ·)) {e e' : Emitted}
    (he : e ∈ es) (he' : e' ∈ es) (hseq : e.seq = e'.seq) : e = e' :=
  List.inj_on_of_nodup_map (h.imp fun hlt => hlt.ne) he he' hseq

/-! ### Polls -/

theorem sound_baseline (h : s.Sound) (hb : s.inv.baseline = .silent) {now : Nanos}
    {listing : List ObjectEntry} (hs : s.step X (.poll now listing) = some s') : s'.Sound := by
  have hc := Inventory.pollCore_silent X now listing hb
  have hpending : (s.inv.live now).pending = [] := Inventory.live_pending_nil (h.wf.silent hb) now
  have hwf := Inventory.wf_pollCore (X := X) h.wf now listing
  simp only [step, if_pos hb, hc, List.append_nil] at hs hwf
  cases hs
  have hnone : ∀ p, p ∉ ((s.inv.live now).setBaseline X (Inventory.currentOf listing)).pending := by
    intro p hp
    rw [show ((s.inv.live now).setBaseline X (Inventory.currentOf listing)).pending =
      (s.inv.live now).pending from rfl, hpending] at hp
    cases hp
  refine ⟨hwf, h.reported, fun _ => rfl, h.written, h.ordered, h.below,
    fun e _ p hp => absurd hp (hnone p), fun e _ hp => hp.elim fun p hp => absurd hp.1 (hnone p),
    fun _ p hp => absurd hp (hnone p), fun e he => ?_, fun hs => (by cases hs),
    fun hstored hstart => ?_⟩
  · refine ⟨(h.stored e he).1, fun m hm => ?_⟩
    obtain ⟨hstored, -⟩ | ⟨e', hstored, hsnap, -⟩ := h.awaited hb
    · cases he.symm.trans hstored
    · cases he.symm.trans hstored
      cases hm.symm.trans hsnap
  · obtain ⟨-, hnow⟩ | ⟨e', hsome, -⟩ := h.awaited hb
    · cases hnow.symm.trans hstart
    · cases hstored.symm.trans hsome

/-- With one change in flight a poll that emits emits one event, into an empty window. -/
theorem single_of_emitted {inv : Inventory} (hb : inv.baseline ≠ .silent)
    (hone : inv.options.maxInFlight = 1) {now : Nanos} {listing : List ObjectEntry} {e : Emitted}
    (he : e ∈ (inv.pollCore X now listing).2) :
    (inv.pollCore X now listing).2 = [e] ∧ (inv.live now).pending = [] := by
  have hlength : (inv.pollCore X now listing).2.length ≤ (inv.live now).room := by
    rw [← List.length_map (f := Emitted.change), (Inventory.pollCore_compare X now listing hb).1,
      Inventory.taken, List.length_take]
    exact Nat.min_le_left _ _
  have hroom : (inv.live now).room = 1 - (inv.live now).pending.length := by
    rw [Inventory.room, show (inv.live now).options = inv.options from rfl, hone]
  have hpos : 0 < (inv.pollCore X now listing).2.length := List.length_pos_of_mem he
  obtain ⟨e', he'⟩ := List.length_eq_one_iff.mp
    (show (inv.pollCore X now listing).2.length = 1 by omega)
  rw [he', List.mem_singleton] at he
  exact ⟨he ▸ he', List.eq_nil_of_length_eq_zero (by omega)⟩

theorem getLast?_append_cases {α : Type} {l l' : List α} {x : α} (h : (l ++ l').getLast? = some x) :
    (l' = [] ∧ l.getLast? = some x) ∨ x ∈ l' := by
  cases l' with
  | nil => exact .inl ⟨rfl, by simpa using h⟩
  | cons y l' =>
    refine .inr (List.mem_of_getLast? ?_)
    rwa [List.getLast?_append_of_ne_nil _ (List.cons_ne_nil y l')] at h

theorem sound_compare (h : s.Sound) (hb : s.inv.baseline ≠ .silent) {now : Nanos}
    {listing : List ObjectEntry} (hs : s.step X (.poll now listing) = some s') : s'.Sound := by
  obtain ⟨hchanges, hseqs, hst, hev⟩ := Inventory.pollCore_compare X now listing hb
  have hconf := History.confirmed_of_reported (X := X) h.wf h.reported hb now listing
  have hoptions := Inventory.pollCore_options X now listing s.inv
  have hkept : (Inventory.forget (Inventory.currentOf listing) (s.inv.live now)).confirmed =
      s.inv.confirmed := by
    rw [← hconf, hst]
  have hbaseline : (s.inv.pollCore X now listing).1.baseline = .known := by rw [hst]
  simp only [step, if_neg hb] at hs
  cases hs
  refine ⟨Inventory.wf_pollCore h.wf now listing, hoptions.2.trans h.reported, fun _ => ?_,
    fun e he => ?_, ?_, fun e he => ?_, fun e he p hp hseq => ?_, fun e hlast hp m hm => ?_,
    fun hone p hp => ?_, h.stored, fun hs => ?_, fun hstored hstart => ?_⟩
  · rw [h.agrees hb, hconf]
  · rcases List.mem_append.mp he with he | he
    · exact h.written e he
    · exact (hev e he).2.2.2.1
  · rw [List.map_append, List.pairwise_append]
    refine ⟨h.ordered, ?_, fun a ha b hb' => ?_⟩
    · rw [hseqs]
      exact List.pairwise_lt_range'
    · obtain ⟨e, he, rfl⟩ := List.mem_map.mp ha
      obtain ⟨e', he', rfl⟩ := List.mem_map.mp hb'
      exact lt_of_lt_of_le (h.below e he) (Inventory.seq_of_emitted he').1
  · rcases List.mem_append.mp he with he | he
    · refine lt_of_lt_of_le (h.below e he) ?_
      rw [hst]
      exact Nat.le_add_right _ _
    · exact (Inventory.seq_of_emitted he).2
  · -- an old number is below the new ones, so event and change are both old or both new
    rcases List.mem_append.mp he with he | he <;>
      rcases Inventory.mem_pending_pollCore.mp hp with hp | ⟨e', he', rfl⟩
    · exact h.window e he p (Inventory.mem_live hp) hseq
    · have hlt := h.below e he
      have hle := (Inventory.seq_of_emitted he').1
      exact absurd hseq (Nat.ne_of_gt (lt_of_lt_of_le hlt hle))
    · have hlt := h.wf.below p (Inventory.mem_live hp)
      have hle := (Inventory.seq_of_emitted he).1
      exact absurd hseq (Nat.ne_of_lt (lt_of_lt_of_le hlt hle))
    · obtain rfl := eq_of_seq (hseqs ▸ List.pairwise_lt_range') he' he hseq
      exact ⟨rfl, rfl⟩
  · rw [hconf]
    rcases getLast?_append_cases hlast with ⟨hnil, hlast⟩ | hmem
    · obtain ⟨p, hp, hseq⟩ := hp
      rw [Inventory.pending_pollCore, hnil, List.map_nil, List.append_nil] at hp
      exact h.newest e hlast ⟨p, Inventory.mem_live hp, hseq⟩ m hm
    · rw [(hev e hmem).1 m hm, hkept]
  · rw [hoptions.1] at hone
    rcases Inventory.mem_pending_pollCore.mp hp with hlive | ⟨e, he, rfl⟩
    · cases hnew : (s.inv.pollCore X now listing).2 with
      | nil =>
        rw [List.append_nil]
        exact h.alone hone p (Inventory.mem_live hlive)
      | cons e es =>
        have hempty := (single_of_emitted hb hone (hnew ▸ List.mem_cons_self)).2
        rw [hempty] at hlive
        cases hlive
    · rw [(single_of_emitted hb hone he).1]
      exact ⟨e, List.getLast?_concat, rfl⟩
  · cases hs.symm.trans hbaseline
  · rw [hoptions.1] at hstart
    exact h.unstored hstored hstart

/-! ### Acknowledgements and restarts -/

/-- An acknowledgement is of an event of the running process, at the position that event carries. -/
theorem ack_cases (h : s.Sound) {seq : ℕ} (hs : s.step X (.ack seq) = some s') :
    ∃ e ∈ s.sent, e.seq = seq ∧ s' = { s with
      inv := s.inv.acknowledged (Cursor.toValue ⟨cursorVersion, e.seq, e.snap⟩)
      view := Function.update s.view e.change.entry.key e.change.digest
      stored := some e } := by
  obtain ⟨e, hfind, hs⟩ := Option.bind_eq_some_iff.mp hs
  obtain ⟨position, hposition, hs⟩ := Option.bind_eq_some_iff.mp hs
  cases hs
  have he : e ∈ s.sent := List.mem_of_find?_eq_some hfind
  rw [h.written e he, Option.some.injEq] at hposition
  subst hposition
  exact ⟨e, he, by simpa using List.find?_some hfind, rfl⟩

/-- **A late acknowledgement** is taken by the host and ignored by the inventory: they agree after it
only if the inventory knew the change already. -/
theorem late_ack (h : s.Sound) (hb : s.inv.baseline ≠ .silent) {seq : ℕ}
    (hlate : ∀ p ∈ s.inv.pending, p.seq ≠ seq) (hs : s.step X (.ack seq) = some s') :
    s'.inv = s.inv ∧ ∃ e ∈ s.sent, e.seq = seq ∧
      (s'.view = look s'.inv.confirmed ↔
        s.inv.confirmed[e.change.entry.key]? = e.change.digest) := by
  obtain ⟨e, he, hseq, rfl⟩ := ack_cases h hs
  have hsame : s.inv.acknowledged (Cursor.toValue ⟨cursorVersion, e.seq, e.snap⟩) = s.inv := by
    refine Inventory.acknowledged_of_none (Option.eq_none_iff_forall_not_mem.mpr fun p hp => ?_)
    obtain ⟨hpos, hmem⟩ := Inventory.acknowledges_eq_some hp
    rw [Inventory.positionSeq_toValue, Option.some.injEq] at hpos
    exact hlate p hmem (hpos.symm.trans hseq)
  refine ⟨hsame, e, he, hseq, ?_⟩
  dsimp only
  rw [hsame, h.agrees hb, Function.update_eq_self_iff]
  exact eq_comm

/-- A careful acknowledgement is of the newest event, whose change is still in the window. -/
theorem ack_newest (h : s.Sound) {seq : ℕ} (hcareful : s.Careful (.ack seq))
    (hs : s.step X (.ack seq) = some s') :
    ∃ e p, s.sent.getLast? = some e ∧
      s.inv.acknowledges (Cursor.toValue ⟨cursorVersion, e.seq, e.snap⟩) = some p ∧ p.seq = e.seq ∧
      s' = { s with
        inv := s.inv.acknowledged (Cursor.toValue ⟨cursorVersion, e.seq, e.snap⟩)
        view := Function.update s.view e.change.entry.key e.change.digest
        stored := some e } := by
  obtain ⟨hwindow, hnewest⟩ := hcareful
  obtain ⟨e, he, rfl, rfl⟩ := ack_cases h hs
  obtain ⟨p, hp, hpseq⟩ :=
    Inventory.exists_acknowledges (Inventory.positionSeq_toValue ⟨cursorVersion, e.seq, e.snap⟩) hwindow
  obtain ⟨e', hlast, hseq'⟩ : ∃ e', s.sent.getLast? = some e' ∧ e'.seq = e.seq := by
    rcases hnewest with hone | hnewest
    · obtain ⟨e', hlast, hseq'⟩ := h.alone hone p (Inventory.acknowledges_eq_some hp).2
      exact ⟨e', hlast, hseq'.trans hpseq⟩
    · exact Option.map_eq_some_iff.mp hnewest
  obtain rfl := eq_of_seq h.ordered (List.mem_of_getLast? hlast) he hseq'
  exact ⟨e', p, hlast, hp, hpseq, rfl⟩

theorem sound_ack (h : s.Sound) {seq : ℕ} (hcareful : s.Careful (.ack seq))
    (hs : s.step X (.ack seq) = some s') : s'.Sound := by
  obtain ⟨e, p, hlast, hp, hseq, rfl⟩ := ack_newest h hcareful hs
  have he : e ∈ s.sent := List.mem_of_getLast? hlast
  have hmem := (Inventory.acknowledges_eq_some hp).2
  have hb : s.inv.baseline ≠ .silent := fun hb => by
    rw [h.wf.silent hb] at hmem
    cases hmem
  have hstate := Inventory.acknowledged_of_some hp
  have hoptions := Inventory.acknowledged_options s.inv
    (Cursor.toValue ⟨cursorVersion, e.seq, e.snap⟩)
  obtain ⟨hkey, hdigest⟩ := h.window e he p hmem hseq
  have hconf : (s.inv.acknowledged (Cursor.toValue ⟨cursorVersion, e.seq, e.snap⟩)).confirmed =
      patch s.inv.confirmed e.change.entry.key e.change.digest := by
    rw [hstate, ← hkey, ← hdigest]
  have hview : Function.update s.view e.change.entry.key e.change.digest =
      look (patch s.inv.confirmed e.change.entry.key e.change.digest) := by
    rw [look_patch, h.agrees hb]
  have hleft := fun q => Inventory.mem_pending_acknowledged (q := q) hp
  refine ⟨Inventory.wf_acknowledged h.wf _, hoptions.2.trans h.reported, fun _ => hconf ▸ hview,
    h.written, h.ordered, fun e' he' => ?_, fun e' he' q hq => h.window e' he' q ((hleft q).mp hq).1,
    fun e' hlast' hin => ?_, fun hone q hq => ?_, fun e' he' => ?_, fun hs => ?_,
    fun hnone => (by cases hnone)⟩
  · rw [hstate]
    exact h.below e' he'
  · -- the acknowledged change was the last in the window
    obtain ⟨q, hq, hqe⟩ := hin
    cases hlast.symm.trans hlast'
    exact absurd ((hleft q).mp hq).2 (by rw [hqe, hseq]; exact lt_irrefl _)
  · rw [hoptions.1] at hone
    exact h.alone hone q ((hleft q).mp hq).1
  · cases he'
    refine ⟨h.written e he, fun m hm => ?_⟩
    rw [h.newest e hlast ⟨p, hmem, hseq⟩ m hm]
    exact hview
  · rw [Inventory.acknowledged_baseline] at hs
    exact absurd hs hb

theorem restart_cases (h : s.Sound) (hook : Option Describe) :
    (s.stored = none ∧ s.step X (.restart hook) = some { s with
      inv := { Inventory.fresh s.inv.options ∅
        (match s.inv.options.start with | .now => .silent | .existing => .report) false with
          describe := hook }
      sent := [] }) ∨
    (∃ e m, s.stored = some e ∧ e.snap = some m ∧ s.step X (.restart hook) = some { s with
      inv := { Inventory.fresh s.inv.options m .known false with describe := hook }
      sent := [] }) ∨
    ∃ e, s.stored = some e ∧ e.snap = none ∧ s.step X (.restart hook) = some { s with
      inv := { Inventory.fresh s.inv.options ∅ .silent true with describe := hook }
      sent := [] } := by
  cases hstored : s.stored with
  | none => exact .inl ⟨rfl, by simp only [step, hstored]; rfl⟩
  | some e =>
    have hnew := Inventory.new_toValue X s.inv.options ⟨cursorVersion, e.seq, e.snap⟩
    rw [← (h.stored e hstored).1] at hnew
    cases hsnap : e.snap with
    | some m =>
      simp only [hsnap] at hnew
      exact .inr (.inl ⟨e, m, rfl, hsnap, by simp only [step, hstored, Option.bind_some, hnew]⟩)
    | none =>
      simp only [hsnap] at hnew
      exact .inr (.inr ⟨e, rfl, hsnap, by simp only [step, hstored, Option.bind_some, hnew]⟩)

theorem sound_restart (h : s.Sound) {hook : Option Describe}
    (hs : s.step X (.restart hook) = some s') : s'.Sound := by
  have hwf : ∀ confirmed baseline gap, (gap = true → baseline = .silent) →
      ({ Inventory.fresh s.inv.options confirmed baseline gap with describe := hook } : Inventory).WF :=
    fun confirmed baseline gap hgap => ⟨by simp [Inventory.SeenKeyed, Inventory.fresh],
      List.Pairwise.nil, by simp [Inventory.fresh], fun _ => rfl, hgap, by simp [Inventory.fresh]⟩
  obtain ⟨hstored, hstep⟩ | ⟨e, m, hstored, hsnap, hstep⟩ | ⟨e, hstored, hsnap, hstep⟩ :=
    restart_cases (X := X) h hook <;> cases hs.symm.trans hstep
  · refine ⟨hwf _ _ _ (by simp), rfl, fun hb => ?_, by simp, List.Pairwise.nil, by simp, by simp,
      by simp, by simp [Inventory.fresh], h.stored, fun hb => .inl ⟨hstored, ?_⟩, h.unstored⟩
    · cases hstart : s.inv.options.start with
      | now => exact absurd (by simp [Inventory.fresh, hstart]) hb
      | existing =>
        rw [h.unstored hstored hstart]
        funext k
        simp [look, Inventory.fresh]
    · cases hstart : s.inv.options.start with
      | now => exact hstart
      | existing => simp [Inventory.fresh, hstart] at hb
  · exact ⟨hwf _ _ _ (by simp), rfl, fun _ => (h.stored e hstored).2 m hsnap, by simp,
      List.Pairwise.nil, by simp, by simp, by simp, by simp [Inventory.fresh], h.stored,
      fun hb => (by cases hb), h.unstored⟩
  · exact ⟨hwf _ _ _ (by simp), rfl, fun hb => absurd rfl hb, by simp, List.Pairwise.nil, by simp,
      by simp, by simp, by simp [Inventory.fresh], h.stored,
      fun _ => .inr ⟨e, hstored, hsnap, rfl⟩, h.unstored⟩

theorem sound_of_reach {s₀ : Recovery} (h₀ : First X s₀) (hr : Reach (Steps X) Careful s₀ s) :
    s.Sound := by
  refine hr.invariant (sound_first h₀) fun u a v hu hcareful hs => ?_
  cases a with
  | poll now listing =>
    by_cases hb : u.inv.baseline = .silent
    · exact sound_baseline hu hb hs
    · exact sound_compare hu hb hs
  | ack seq => exact sound_ack hu hcareful hs
  | restart hook => exact sound_restart hu hs

end Steps

/-! ## What the host can rely on -/

/-- What a host can rely on, whenever the process ends. -/
structure Exact (X : Externs) (s : Recovery) : Prop where
  /-- A next process starts from the stored position. -/
  resumes : ∀ hook, ∃ s', s.step X (.restart hook) = some s'
  /-- One that cannot tell what changed says so. -/
  rescans : s.inv.baseline = .silent → s.stored ≠ none → ∀ now listing,
    ∃ e ∈ (s.inv.poll X now listing).2, e.gap = true
  agrees : s.inv.baseline ≠ .silent → s.view = look s.inv.confirmed
  /-- With nothing in flight a poll reports what differs from the view: as much of it as the window
  holds, no object twice, each as the listing has it and with the change the host sees. -/
  reports : s.inv.baseline ≠ .silent → ∀ now listing, (s.inv.live now).pending = [] →
    let es := (s.inv.pollCore X now listing).2
    let target := Inventory.target X listing
    (s.inv.poll X now listing).2 = es.map Emitted.event ∧
      es.length = min (disagree s.inv.confirmed target).card s.inv.options.maxInFlight ∧
      (es.map fun e => e.change.entry.key).Nodup ∧
      ∀ e ∈ es, s.view e.change.entry.key ≠ target[e.change.entry.key]? ∧
        e.change.digest = target[e.change.entry.key]? ∧
        e.change.op = Inventory.opOf (s.view e.change.entry.key) target[e.change.entry.key]?

/-- **Restarts are exact, however many.** A host that acknowledges the newest event only, or allows one
change in flight, and acknowledges a change while it is in the window, can lose the process at any time
and with it whatever it had not acknowledged: the next one starts from the position the host stored, and
reports a gap, or takes for known what the host knows and reports what differs from it, so that nothing
that changed while stopped is missed. -/
theorem restarts_exact {X : Externs} {s₀ s : Recovery} (h₀ : First X s₀)
    (hr : Reach (Steps X) Careful s₀ s) : s.Exact X := by
  have h := sound_of_reach h₀ hr
  refine ⟨fun hook => ?_, fun hb hstored now listing => ?_, h.agrees, fun hb now listing hnone => ?_⟩
  · obtain ⟨-, hstep⟩ | ⟨_, _, -, -, hstep⟩ | ⟨_, -, -, hstep⟩ := restart_cases (X := X) h hook <;>
      exact ⟨_, hstep⟩
  · obtain ⟨hno, -⟩ | ⟨-, -, -, hgap⟩ := h.awaited hb
    · exact absurd hno hstored
    · refine ⟨{ gap := true }, ?_, rfl⟩
      rw [Inventory.poll, hgap]
      exact List.mem_append_left _ (List.mem_singleton_self _)
  · refine ⟨Inventory.events_of_poll h.wf hb now listing,
      Inventory.length_of_expired h.wf hb h.reported hnone listing,
      Inventory.nodup_emitted X now listing h.wf hb, fun e he => ?_⟩
    obtain ⟨hdigest, hne, -, hop⟩ := Inventory.spec_of_emitted h.wf he
    rw [h.agrees hb]
    exact ⟨hne, hdigest, hop⟩

/-- A run of a careful host. -/
def run (X : Externs) (s : Recovery) (acts : List RecoveryAct) : Option Recovery :=
  acts.foldlM (fun s a => if s.Careful a then s.step X a else none) s

/-- Two objects in one listing, the newest event acknowledged, and the process lost with the other. -/
def newestOnly : List RecoveryAct :=
  [.poll 0 [], .poll 1 [{ key := "a" }, { key := "b" }], .ack 1, .restart none]

/-- The next process reports the object whose event was lost, and a deletion while it was stopped. -/
theorem restarts_exact_newestOnly : ∃ s,
    run plainExterns ⟨Inventory.plainInventory, fun _ => none, [], none⟩ newestOnly = some s ∧
      s.Exact plainExterns ∧
      (s.inv.pollCore plainExterns 2 [{ key := "a" }]).2.map (fun e => e.change.op) =
        [.created, .deleted] := by
  obtain ⟨s, hs, hops⟩ := end_of_run
    (r := run plainExterns ⟨Inventory.plainInventory, fun _ => none, [], none⟩ newestOnly)
    (P := fun s => (s.inv.pollCore plainExterns 2 [{ key := "a" }]).2.map (fun e => e.change.op) =
      [.created, .deleted]) (by decide +kernel)
  refine ⟨s, hs, restarts_exact ⟨Inventory.plainOptions, none, _, rfl, rfl⟩ ?_, hops⟩
  refine Reach.of_foldlM (fun u a v h => ?_) hs
  rwa [Option.ite_none_right_eq_some] at h

end Recovery

end McpgSdk
