import Mathlib.Data.Nat.Notation
import Mathlib.Logic.Function.Basic
import Mathlib.Tactic.SplitIfs
import McpgSdk.Lib.Run

/-!
# The registry of live instances

A plugin's log events go to the host of the instance made last. The registry `LIVE` keeps one entry
for each instance, the address of its box with the host handle it was made with; `boxed_make_with_host`
pushes it and `boxed_drop` removes every entry with the address, after the box is freed. The calls run
on any threads; each lock-protected section is one step.

* `State.next`: the steps of any number of such calls and of log events between them;
* **`no_forward_after_drop`**: once `boxed_drop` of an instance has returned, no event goes to the
  host through the entry of that instance;
* **`registry_complete`**: as long as a detach never finds another attached instance at its address,
  each live instance has exactly one entry, and every enabled event reaches the host of one;
* `shared_address_silences`: two instances of a zero-sized type have the same address, and dropping
  one removes the entries of both.
-/

set_option autoImplicit false

namespace McpgSdk

namespace PluginLog

/-! ## Log events -/

/-- A `tracing` level. -/
inductive Level
  | error
  | warn
  | info
  | debug
  | trace
  deriving DecidableEq, Repr

/-- How verbose a level is: `tracing` orders levels by it. -/
def Level.verbosity : Level → ℕ
  | .error => 1
  | .warn => 2
  | .info => 3
  | .debug => 4
  | .trace => 5

/-- `MAX_LEVEL`. -/
def maxLevel : Level := .info

/-- What the dispatcher asks a subscriber about: an event or a span, with its level and, for an
event, the text of its record. A record that does not serialise has none. -/
structure LogEvent where
  isEvent : Bool
  level : Level
  attrs : Option String

/-- `Forwarder::enabled`. -/
def enabled (ev : LogEvent) : Bool :=
  ev.isEvent && decide (ev.level.verbosity ≤ maxLevel.verbosity)

/-! ## The registry -/

/-- The address of a plugin's box, as `plugin as usize`. -/
abbrev Address := ℕ

/-- An entry of `LIVE`. `owner` is no field of the source: it says which call of
`boxed_make_with_host` pushed the entry. -/
structure Entry (H : Type) where
  plugin : Address
  host : H
  owner : ℕ

/-- One record sent to a host, and through whose entry. -/
structure Forward (H : Type) where
  host : H
  attrs : String
  owner : ℕ

variable {H : Type}

/-- `attach`. -/
def attach (live : List (Entry H)) (plugin : Address) (host : H) (owner : ℕ) : List (Entry H) :=
  live ++ [⟨plugin, host, owner⟩]

/-- `detach`. -/
def detach (live : List (Entry H)) (plugin : Address) : List (Entry H) :=
  live.filter fun e => decide (e.plugin ≠ plugin)

/-- `Forwarder::event`, with `deliver`: the entry attached last gets the record. -/
def event (live : List (Entry H)) (ev : LogEvent) : List (Forward H) :=
  match ev.attrs, live.getLast? with
  | some attrs, some e => [⟨e.host, attrs, e.owner⟩]
  | _, _ => []

/-! ## Calls -/

/-- Where an instance stands between the start of its `boxed_make_with_host` and the return of its
`boxed_drop`. -/
inductive Phase
  | unborn
  /-- The factory runs. -/
  | making
  /-- The factory panicked; there is no instance. -/
  | failed
  /-- The instance is in its box. -/
  | boxed
  /-- `attach` has run. -/
  | attached
  /-- `boxed_make_with_host` has returned. -/
  | live
  /-- `boxed_drop` was called; the plugin's own `Drop` runs. -/
  | dropping
  /-- The box is freed; the guard `Detach` has not run. -/
  | freed (panicked : Bool)
  | detached (panicked : Bool)
  /-- `boxed_drop` has returned, or has unwound. -/
  | dropped (panicked : Bool)
  deriving DecidableEq, Repr

/-- The instance has been attached and not been detached by its own `boxed_drop`. -/
def Phase.isAttached : Phase → Bool
  | .attached | .live | .dropping | .freed _ => true
  | _ => false

/-- `boxed_drop` of the instance has not begun. -/
def Phase.isKept : Phase → Bool
  | .attached | .live => true
  | _ => false

/-- No call about the instance is running. -/
def Phase.isBetween : Phase → Bool
  | .unborn | .failed | .live | .dropped _ => true
  | _ => false

/-- The instances made so far, the registry, and what was sent to hosts. -/
structure State (H : Type) where
  phase : ℕ → Phase
  address : ℕ → Address
  /-- `host.ffi_ref()` of the handle the instance was made with. -/
  host : ℕ → Option H
  live : List (Entry H)
  forwarded : List (Forward H)

/-- Nothing was made yet. -/
def State.start : State H where
  phase := fun _ => .unborn
  address := fun _ => 0
  host := fun _ => none
  live := []
  forwarded := []

/-- The steps of the calls for instance `i`, and a log event on any thread. -/
inductive Act (H : Type)
  | make (i : ℕ) (host : Option H)
  | factoryPanics (i : ℕ)
  | box (i : ℕ) (address : Address)
  | attach (i : ℕ)
  | made (i : ℕ)
  | drop (i : ℕ)
  | free (i : ℕ) (panicked : Bool)
  | detach (i : ℕ)
  | dropped (i : ℕ)
  | event (ev : LogEvent)

/-- Instance `i` goes on to phase `p`. -/
def State.move (s : State H) (i : ℕ) (p : Phase) : State H :=
  { s with phase := Function.update s.phase i p }

/-- One step of `boxed_make_with_host`, of `boxed_drop`, or of a log event. -/
def State.next (s : State H) : Act H → Option (State H)
  | .make i host =>
    if s.phase i = .unborn then
      some { s.move i .making with host := Function.update s.host i host }
    else none
  | .factoryPanics i => if s.phase i = .making then some (s.move i .failed) else none
  | .box i a =>
    if s.phase i = .making then
      some { s.move i .boxed with address := Function.update s.address i a }
    else none
  | .attach i =>
    if s.phase i = .boxed then
      match s.host i with
      | some host => some { s.move i .attached with live := attach s.live (s.address i) host i }
      | none => some (s.move i .attached)
    else none
  | .made i => if s.phase i = .attached then some (s.move i .live) else none
  | .drop i => if s.phase i = .live then some (s.move i .dropping) else none
  -- `Box` frees the memory whether or not the plugin's `Drop` unwinds, and `_detach` runs either way.
  | .free i panicked => if s.phase i = .dropping then some (s.move i (.freed panicked)) else none
  | .detach i =>
    match s.phase i with
    | .freed panicked =>
      some { s.move i (.detached panicked) with live := detach s.live (s.address i) }
    | _ => none
  | .dropped i =>
    match s.phase i with
    | .detached panicked => some (s.move i (.dropped panicked))
    | _ => none
  -- The dispatcher calls `event` for what the subscriber enabled only.
  | .event ev =>
    some (if enabled ev then { s with forwarded := s.forwarded ++ event s.live ev } else s)

/-- One step, as a relation. -/
def step (s : State H) (a : Act H) (t : State H) : Prop := s.next a = some t

/-! ## What a step can do -/

/-- Instance `i` moves on to phase `p`, and neither the registry nor anything an attached instance
holds changes. -/
structure Moves (s : State H) (a : Act H) (t : State H) (i : ℕ) (p : Phase) : Prop where
  running : ∀ panicked, s.phase i ≠ .dropped panicked
  moved : p ≠ .unborn
  phase : t.phase = Function.update s.phase i p
  attached : p.isAttached = (s.phase i).isAttached
  kept : p.isKept → (s.phase i).isKept
  live : t.live = s.live
  forwarded : t.forwarded = s.forwarded
  address : ∀ j, (s.phase j).isAttached → t.address j = s.address j
  host : ∀ j, s.phase j ≠ .unborn → t.host j = s.host j
  born : ∀ j, s.phase j = .unborn → t.phase j ≠ .unborn → a = .make j (t.host j)

section Steps

variable {s t : State H} {a : Act H}

theorem move_phase_of_ne {i j : ℕ} (p : Phase) (hne : j ≠ i) : (s.move i p).phase j = s.phase j := by
  unfold State.move
  exact Function.update_of_ne hne p s.phase

theorem moves_of_phase {i : ℕ} {p q : Phase} (hi : s.phase i = q) (hq : q ≠ .unborn)
    (hrunning : ∀ panicked, q ≠ .dropped panicked) (hp : p ≠ .unborn)
    (hattached : p.isAttached = q.isAttached) (hkept : p.isKept → q.isKept) :
    Moves s a (s.move i p) i p := by
  subst hi
  refine ⟨hrunning, hp, rfl, hattached, hkept, rfl, rfl, fun _ _ => rfl, fun _ _ => rfl,
    fun j hj hborn => ?_⟩
  have hne : j ≠ i := fun he => hq (he ▸ hj)
  exact absurd ((move_phase_of_ne p hne).trans hj) hborn

/-- Everything a step can do: move an instance on without touching the registry, attach one, detach
one, or forward an event. -/
theorem step_cases (h : step s a t) :
    (∃ i p, Moves s a t i p) ∨
    (∃ i, a = .attach i ∧ s.phase i = .boxed ∧ t = { s.move i .attached with
      live := ((s.host i).map fun host => attach s.live (s.address i) host i).getD s.live }) ∨
    (∃ i panicked, a = .detach i ∧ s.phase i = .freed panicked ∧ t = { s.move i (.detached panicked)
      with live := detach s.live (s.address i) }) ∨
    ∃ ev, a = .event ev ∧
      t = { s with forwarded := s.forwarded ++ if enabled ev then event s.live ev else [] } := by
  unfold step at h
  cases a with
  | make i host =>
    simp only [State.next] at h
    split_ifs at h with hi
    obtain rfl := Option.some.inj h
    refine .inl ⟨i, .making, by simp [hi], by simp, rfl, by rw [hi]; rfl, (fun h => by cases h), rfl,
      rfl, fun _ _ => rfl, fun j hj => ?_, fun j hj hborn => ?_⟩
    · have hne : j ≠ i := fun he => hj (he ▸ hi)
      exact Function.update_of_ne hne host s.host
    · by_cases hji : j = i
      · subst hji
        show Act.make j host = Act.make j (Function.update s.host j host j)
        rw [Function.update_self]
      · exact absurd ((move_phase_of_ne _ hji).trans hj) hborn
  | box i address =>
    simp only [State.next] at h
    split_ifs at h with hi
    obtain rfl := Option.some.inj h
    have hm : Moves s (.box i address) (s.move i .boxed) i .boxed :=
      moves_of_phase hi (by simp) (by simp) (by simp) rfl (fun h => by cases h)
    refine .inl ⟨i, .boxed, { hm with address := fun j hj => ?_ }⟩
    have hne : j ≠ i := fun he => by simp [he, hi, Phase.isAttached] at hj
    exact Function.update_of_ne hne address s.address
  | attach i =>
    simp only [State.next] at h
    split_ifs at h with hi
    refine .inr (.inl ⟨i, rfl, hi, ?_⟩)
    cases hh : s.host i with
    | some host =>
      rw [hh] at h
      exact (Option.some.inj h).symm
    | none =>
      rw [hh] at h
      exact (Option.some.inj h).symm
  | detach i =>
    simp only [State.next] at h
    split at h
    · next panicked hi => exact .inr (.inr (.inl ⟨i, panicked, rfl, hi, (Option.some.inj h).symm⟩))
    · cases h
  | dropped i =>
    simp only [State.next] at h
    split at h
    · next panicked hi =>
      obtain rfl := Option.some.inj h
      exact .inl ⟨i, _, moves_of_phase hi (by simp) (by simp) (by simp) rfl (fun h => by cases h)⟩
    · cases h
  | event ev =>
    refine .inr (.inr (.inr ⟨ev, rfl, ?_⟩))
    simp only [State.next] at h
    obtain rfl := Option.some.inj h
    by_cases he : enabled ev <;> simp [he]
  | factoryPanics i | drop i | free i panicked =>
    simp only [State.next] at h
    split_ifs at h with hi
    obtain rfl := Option.some.inj h
    exact .inl ⟨i, _, moves_of_phase hi (by simp) (by simp) (by simp) rfl (fun h => by cases h)⟩
  | made i =>
    simp only [State.next] at h
    split_ifs at h with hi
    obtain rfl := Option.some.inj h
    exact .inl ⟨i, _, moves_of_phase hi (by simp) (by simp) (by simp) rfl (fun _ => rfl)⟩

theorem Moves.isAttached_eq {i : ℕ} {p : Phase} (h : Moves s a t i p) (j : ℕ) :
    (t.phase j).isAttached = (s.phase j).isAttached := by
  rw [h.phase]
  by_cases hj : j = i
  · subst hj
    rw [Function.update_self, h.attached]
  · rw [Function.update_of_ne hj]

theorem Moves.isKept_of {i : ℕ} {p : Phase} (h : Moves s a t i p) {j : ℕ}
    (hj : (t.phase j).isKept) : (s.phase j).isKept := by
  rw [h.phase] at hj
  by_cases hji : j = i
  · subst hji
    rw [Function.update_self] at hj
    exact h.kept hj
  · rwa [Function.update_of_ne hji] at hj

/-! ## Entries belong to attached instances -/

/-- Every entry is the entry of an instance that has been attached and not yet detached, with its
address and its host. -/
def Registered (s : State H) : Prop :=
  ∀ e ∈ s.live, (s.phase e.owner).isAttached ∧ s.address e.owner = e.plugin ∧
    s.host e.owner = some e.host

theorem ne_unborn_of_isAttached {p : Phase} (h : p.isAttached) : p ≠ .unborn := by
  rintro rfl
  cases h

theorem mem_attached {i : ℕ} {e : Entry H}
    (he : e ∈ ((s.host i).map fun host => attach s.live (s.address i) host i).getD s.live) :
    e ∈ s.live ∨ ∃ host, s.host i = some host ∧ e = ⟨s.address i, host, i⟩ := by
  cases hh : s.host i with
  | none => exact .inl (by rwa [hh] at he)
  | some host =>
    rw [hh] at he
    rcases List.mem_append.mp he with he | he
    · exact .inl he
    · exact .inr ⟨host, rfl, List.mem_singleton.mp he⟩

theorem registered_step (hs : Registered s) (h : step s a t) : Registered t := by
  rcases step_cases h with ⟨i, p, hm⟩ | ⟨i, -, hi, rfl⟩ | ⟨i, panicked, -, hi, rfl⟩ | ⟨ev, -, rfl⟩
  · intro e he
    rw [hm.live] at he
    have ⟨hatt, haddr, hhost⟩ := hs e he
    rw [hm.isAttached_eq, hm.address _ hatt, hm.host _ (ne_unborn_of_isAttached hatt)]
    exact ⟨hatt, haddr, hhost⟩
  · intro e he
    rcases mem_attached he with he | ⟨host, hhost, rfl⟩
    · have ⟨hatt, haddr, hhost⟩ := hs e he
      have hne : e.owner ≠ i := fun ho => by
        rw [ho, hi] at hatt
        cases hatt
      exact ⟨by rwa [← move_phase_of_ne .attached hne] at hatt, haddr, hhost⟩
    · refine ⟨?_, rfl, hhost⟩
      show (Function.update s.phase i .attached i).isAttached
      rw [Function.update_self]
      rfl
  · intro e he
    have ⟨hmem, hplugin⟩ := List.mem_filter.mp he
    have ⟨hatt, haddr, hhost⟩ := hs e hmem
    -- An entry of `i` itself has the address of `i`, so `retain` dropped it.
    have hne : e.owner ≠ i := fun ho => by
      rw [ho] at haddr
      exact of_decide_eq_true hplugin haddr.symm
    exact ⟨by rwa [← move_phase_of_ne _ hne] at hatt, haddr, hhost⟩
  · exact hs

theorem registered_of_reach {ok : State H → Act H → Prop} (h : Reach step ok State.start s) :
    Registered s :=
  h.invariant (fun _ he => absurd he List.not_mem_nil) fun _ _ _ hu _ hstep =>
    registered_step hu hstep

/-! ## After the drop -/

theorem dropped_step {i : ℕ} {panicked : Bool} (hi : s.phase i = .dropped panicked)
    (h : step s a t) : t.phase i = .dropped panicked := by
  have hkeep : ∀ j p, s.phase j ≠ .dropped panicked → (s.move j p).phase i = .dropped panicked := by
    intro j p hj
    have hne : i ≠ j := fun he => hj (he ▸ hi)
    rw [move_phase_of_ne p hne, hi]
  rcases step_cases h with ⟨j, p, hm⟩ | ⟨j, -, hj, rfl⟩ | ⟨j, b, -, hj, rfl⟩ | ⟨ev, -, rfl⟩
  · rw [hm.phase]
    exact hkeep j p (hm.running panicked)
  · exact hkeep j _ (by simp [hj])
  · exact hkeep j _ (by simp [hj])
  · exact hi

theorem mem_event {live : List (Entry H)} {ev : LogEvent} {f : Forward H} (hf : f ∈ event live ev) :
    ∃ e ∈ live, f.owner = e.owner ∧ f.host = e.host := by
  unfold event at hf
  split at hf
  · next attrs e _ he =>
    obtain rfl := List.mem_singleton.mp hf
    exact ⟨e, List.mem_of_getLast? he, rfl, rfl⟩
  · cases hf

theorem forwarded_step (h : step s a t) : ∃ new, t.forwarded = s.forwarded ++ new ∧
    ∀ f ∈ new, ∃ e ∈ s.live, f.owner = e.owner ∧ f.host = e.host := by
  rcases step_cases h with ⟨i, p, hm⟩ | ⟨i, -, hi, rfl⟩ | ⟨i, b, -, hi, rfl⟩ | ⟨ev, -, rfl⟩
  · exact ⟨[], by rw [hm.forwarded, List.append_nil], by simp⟩
  · exact ⟨[], (List.append_nil _).symm, by simp⟩
  · exact ⟨[], (List.append_nil _).symm, by simp⟩
  · refine ⟨_, rfl, fun f hf => ?_⟩
    split_ifs at hf
    · exact mem_event hf
    · cases hf

theorem host_step {i : ℕ} {host : H} (hi : s.phase i ≠ .unborn) (hhost : s.host i = some host)
    (h : step s a t) : t.phase i ≠ .unborn ∧ t.host i = some host := by
  have hkeep : ∀ j p, p ≠ .unborn → (s.move j p).phase i ≠ .unborn := by
    intro j p hp
    by_cases hij : i = j
    · subst hij
      show Function.update s.phase i p i ≠ .unborn
      rwa [Function.update_self]
    · rwa [move_phase_of_ne p hij]
  rcases step_cases h with ⟨j, p, hm⟩ | ⟨j, -, -, rfl⟩ | ⟨j, b, -, -, rfl⟩ | ⟨ev, -, rfl⟩
  · rw [hm.phase, hm.host i hi]
    exact ⟨hkeep j p hm.moved, hhost⟩
  · exact ⟨hkeep j _ (by simp), hhost⟩
  · exact ⟨hkeep j _ (by simp), hhost⟩
  · exact ⟨hi, hhost⟩

end Steps

/-- **Safety of the registry.** However calls and log events interleave, and whatever addresses the
boxes have: after `boxed_drop` of instance `i` has returned, every event that is still forwarded goes
through the handle of another instance. -/
theorem no_forward_after_drop {s t : State H} {i : ℕ} {panicked : Bool}
    (hs : Reach step anyStep State.start s) (hi : s.phase i = .dropped panicked)
    (ht : Reach step anyStep s t) :
    ∃ later, t.forwarded = s.forwarded ++ later ∧
      ∀ f ∈ later, f.owner ≠ i ∧ t.host f.owner = some f.host := by
  -- The invariant of the rest of the run, from `s` on.
  have hinv := ht.invariant (I := fun u => Registered u ∧ u.phase i = .dropped panicked ∧
      ∃ later, u.forwarded = s.forwarded ++ later ∧
        ∀ f ∈ later, f.owner ≠ i ∧ u.phase f.owner ≠ .unborn ∧ u.host f.owner = some f.host)
    ⟨registered_of_reach hs, hi, [], (List.append_nil _).symm, by simp⟩ ?_
  · obtain ⟨-, -, later, hlater, hf⟩ := hinv
    exact ⟨later, hlater, fun f hmem => ⟨(hf f hmem).1, (hf f hmem).2.2⟩⟩
  · rintro u a v ⟨hu, hui, later, hlater, hf⟩ - hstep
    refine ⟨registered_step hu hstep, dropped_step hui hstep, ?_⟩
    obtain ⟨new, hnew, hthrough⟩ := forwarded_step hstep
    refine ⟨later ++ new, by rw [hnew, hlater, List.append_assoc], fun f hmem => ?_⟩
    rcases List.mem_append.mp hmem with hold | hmem
    · have ⟨hne, hborn, hhost⟩ := hf f hold
      exact ⟨hne, host_step hborn hhost hstep⟩
    · obtain ⟨e, he, howner, hhost⟩ := hthrough f hmem
      have ⟨hatt, _, hentry⟩ := hu e he
      rw [howner, hhost]
      refine ⟨fun heq => ?_, host_step (ne_unborn_of_isAttached hatt) hentry hstep⟩
      rw [heq, hui] at hatt
      cases hatt

/-- A run of given steps that pass a check. -/
def State.run (s : State H) (check : Act H → Bool) (acts : List (Act H)) : Option (State H) :=
  acts.foldlM (fun s a => if check a then s.next a else none) s

theorem reach_run {ok : State H → Act H → Prop} {check : Act H → Bool}
    (hcheck : ∀ s a, check a → ok s a) {s t : State H} {acts : List (Act H)}
    (h : s.run check acts = some t) : Reach step ok s t := by
  refine Reach.of_foldlM (fun u a v hstep => ?_) h
  by_cases ha : check a
  · rw [if_pos ha] at hstep
    exact ⟨hcheck u a ha, hstep⟩
  · rw [if_neg ha] at hstep
    cases hstep

/-- The calls that make instance `i` in a box at `address`. -/
def makeCalls (i : ℕ) (address : Address) (host : H) : List (Act H) :=
  [.make i (some host), .box i address, .attach i, .made i]

/-- The calls that drop instance `i`. -/
def dropCalls (i : ℕ) (panicked : Bool) : List (Act H) :=
  [.drop i, .free i panicked, .detach i, .dropped i]

/-- An INFO event. -/
def infoEvent : LogEvent := ⟨true, .info, some "started"⟩

theorem no_forward_after_drop_reusedAddress :
    ∃ s t : State ℕ, Reach step anyStep State.start s ∧ s.phase 0 = .dropped true ∧
      Reach step anyStep s t ∧ t.forwarded.map Forward.owner = [0, 1] ∧
      ∃ later, t.forwarded = s.forwarded ++ later ∧
        ∀ f ∈ later, f.owner ≠ 0 ∧ t.host f.owner = some f.host := by
  obtain ⟨s, hs, hdropped, hnext⟩ := end_of_run
    (r := (State.start : State ℕ).run (fun _ => true)
      (makeCalls 0 16 7 ++ [.event infoEvent] ++ dropCalls 0 true))
    (P := fun s => s.phase 0 = .dropped true ∧
      ((s.run (fun _ => true) (makeCalls 1 16 8 ++ [.event infoEvent])).any fun t =>
        decide (t.forwarded.map Forward.owner = [0, 1])) = true) (by decide +kernel)
  obtain ⟨t, ht, howners⟩ := end_of_run hnext
  have hs := reach_run (fun _ _ _ => trivial) hs
  have ht := reach_run (fun _ _ _ => trivial) ht
  exact ⟨s, t, hs, hdropped, ht, howners, no_forward_after_drop hs hdropped ht⟩

/-! ## One entry for each live instance -/

/-- How many entries instance `i` has. -/
def State.entries (s : State H) (i : ℕ) : ℕ := s.live.countP fun e => decide (e.owner = i)

/-- No call is running. -/
def State.Idle (s : State H) : Prop := ∀ i, (s.phase i).isBetween

/-- Every instance was made with a host behind the FFI, and `boxed_drop` of an instance detaches its
address only while no other instance that is attached and not being dropped has it. -/
def AloneAtAddress (s : State H) : Act H → Prop
  | .make _ host => host.isSome
  | .detach i => ∀ j, j ≠ i → (s.phase j).isKept → s.address j ≠ s.address i
  | _ => True

/-- The registry is complete: a live instance has one entry, between calls nothing else has one, and
an enabled event goes to the host of an instance that is not dropped, between calls of a live one. -/
structure Complete (s : State H) : Prop where
  one : ∀ i, s.phase i = .live → s.entries i = 1
  others : s.Idle → ∀ i, s.phase i ≠ .live → s.entries i = 0
  forwards : ∀ ev attrs, enabled ev → ev.attrs = some attrs → (∃ i, s.phase i = .live) →
    ∃ i host, s.next (.event ev) = some { s with forwarded := s.forwarded ++ [⟨host, attrs, i⟩] } ∧
      s.host i = some host ∧ (s.phase i).isAttached ∧ (s.Idle → s.phase i = .live)

section Complete

variable {s t : State H} {a : Act H}

/-- What `Complete` needs of every state on the way. -/
structure Counted (s : State H) : Prop where
  registered : Registered s
  hosted : ∀ i, s.phase i ≠ .unborn → (s.host i).isSome
  kept : ∀ i, (s.phase i).isKept → s.entries i = 1

theorem entries_eq_zero (hs : Registered s) {i : ℕ} (hi : (s.phase i).isAttached = false) :
    s.entries i = 0 := by
  refine List.countP_eq_zero.mpr fun e he howner => ?_
  have hatt := (hs e he).1
  rw [of_decide_eq_true howner, hi] at hatt
  cases hatt

theorem entries_attach (i j : ℕ) (host : H) :
    State.entries { s.move i .attached with live := attach s.live (s.address i) host i } j =
      s.entries j + if i = j then 1 else 0 := by
  unfold State.entries attach
  rw [List.countP_append, List.countP_singleton]
  simp

theorem entries_detach (hs : Registered s) {i j : ℕ} {p : Phase}
    (hne : s.address j ≠ s.address i) :
    State.entries { s.move i p with live := detach s.live (s.address i) } j = s.entries j := by
  unfold State.entries detach
  rw [List.countP_filter]
  refine List.countP_congr fun e he => ?_
  have haddr := (hs e he).2.1
  by_cases howner : e.owner = j
  · rw [howner] at haddr
    have hplugin : e.plugin ≠ s.address i := haddr ▸ hne
    simp [howner, hplugin]
  · simp [howner]

theorem counted_step (hs : Counted s) (hok : AloneAtAddress s a) (h : step s a t) : Counted t := by
  have hreg := registered_step hs.registered h
  rcases step_cases h with ⟨i, p, hm⟩ | ⟨i, rfl, hi, rfl⟩ | ⟨i, b, rfl, hi, rfl⟩ | ⟨ev, -, rfl⟩
  · refine ⟨hreg, fun j hj => ?_, fun j hj => ?_⟩
    · by_cases hunborn : s.phase j = .unborn
      · have hmake := hm.born j hunborn hj
        subst hmake
        exact hok
      · rw [hm.host j hunborn]
        exact hs.hosted j hunborn
    · have hentries : t.entries j = s.entries j := by rw [State.entries, hm.live]; rfl
      rw [hentries]
      exact hs.kept j (hm.isKept_of hj)
  · obtain ⟨host, hhost⟩ := Option.isSome_iff_exists.mp (hs.hosted i (by simp [hi]))
    rw [hhost] at hreg ⊢
    refine ⟨hreg, fun j hj => ?_, fun j hj => ?_⟩
    · by_cases hji : j = i
      · rw [hji]
        exact hs.hosted i (by simp [hi])
      · exact hs.hosted j ((move_phase_of_ne .attached hji) ▸ hj)
    · rw [Option.map_some, Option.getD_some, entries_attach]
      by_cases hji : j = i
      · have hzero : s.entries i = 0 := entries_eq_zero hs.registered (by rw [hi]; rfl)
        rw [hji, hzero, if_pos rfl]
      · rw [if_neg (Ne.symm hji)]
        exact hs.kept j ((move_phase_of_ne .attached hji) ▸ hj)
  · refine ⟨hreg, fun j hj => ?_, fun j hj => ?_⟩
    · by_cases hji : j = i
      · rw [hji]
        exact hs.hosted i (by simp [hi])
      · exact hs.hosted j ((move_phase_of_ne _ hji) ▸ hj)
    · have hji : j ≠ i := fun he => by
        subst he
        have hself : (s.move j (.detached b)).phase j = .detached b := Function.update_self ..
        have hkept : ((s.move j (.detached b)).phase j).isKept := hj
        rw [hself] at hkept
        cases hkept
      have hkept : (s.phase j).isKept := (move_phase_of_ne (.detached b) hji) ▸ hj
      rw [entries_detach hs.registered (hok j hji hkept)]
      exact hs.kept j hkept
  · exact ⟨hreg, hs.hosted, hs.kept⟩

theorem counted_of_reach (h : Reach step AloneAtAddress State.start s) : Counted s :=
  h.invariant
    ⟨fun _ he => absurd he List.not_mem_nil, fun _ hi => absurd rfl hi, fun _ hi => by cases hi⟩
    fun _ _ _ hu hok hstep => counted_step hu hok hstep

theorem Counted.exists_entry (hs : Counted s) {i : ℕ} (hi : (s.phase i).isKept) :
    ∃ e ∈ s.live, e.owner = i ∧ e.plugin = s.address i := by
  have hpos : 0 < s.entries i := by rw [hs.kept i hi]; exact Nat.one_pos
  obtain ⟨e, he, howner⟩ := List.countP_pos_iff.mp hpos
  have howner : e.owner = i := of_decide_eq_true howner
  exact ⟨e, he, howner, howner ▸ (hs.registered e he).2.1.symm⟩

theorem live_of_isAttached_of_idle (hidle : s.Idle) {i : ℕ} (h : (s.phase i).isAttached) :
    s.phase i = .live := by
  have hbetween := hidle i
  cases hp : s.phase i <;> simp_all [Phase.isAttached, Phase.isBetween]

/-- With one entry for each live instance, an event is sent through the last entry. -/
theorem Counted.complete (hs : Counted s) : Complete s := by
  refine ⟨fun i hi => hs.kept i (by rw [hi]; rfl), fun hidle i hi => ?_, ?_⟩
  · refine entries_eq_zero hs.registered (Bool.eq_false_iff.mpr fun hatt => hi ?_)
    exact live_of_isAttached_of_idle hidle hatt
  · rintro ev attrs hev hattrs ⟨i, hi⟩
    obtain ⟨e, he, -⟩ := hs.exists_entry (i := i) (by rw [hi]; rfl)
    have hne : s.live ≠ [] := List.ne_nil_of_mem he
    have ⟨hatt, _, hhost⟩ := hs.registered _ (List.getLast_mem hne)
    refine ⟨_, _, ?_, hhost, hatt, fun hidle => live_of_isAttached_of_idle hidle hatt⟩
    simp only [State.next, event, if_pos hev, hattrs, List.getLast?_eq_some_getLast hne]

end Complete

/-- **Completeness of the registry.** In a run in which every instance has a host behind the FFI, and
no detach finds another attached instance at its address, the registry is complete in every state. -/
theorem registry_complete {s : State H} (h : Reach step AloneAtAddress State.start s) : Complete s :=
  (counted_of_reach h).complete

/-- The steps that `AloneAtAddress` allows in any state. -/
def isPlain : Act H → Bool
  | .make _ host => host.isSome
  | .detach _ => false
  | _ => true

theorem aloneAtAddress_of_isPlain (s : State H) (a : Act H) (h : isPlain a) : AloneAtAddress s a := by
  cases a with
  | make i host => exact h
  | detach i => cases h
  | _ => trivial

theorem registry_complete_oneDropped :
    ∃ s : State ℕ, Reach step AloneAtAddress State.start s ∧ s.phase 1 = .live ∧
      s.phase 0 = .detached false ∧ s.live.map Entry.owner = [1] ∧ Complete s := by
  obtain ⟨s, hs, hlive, hnext⟩ := end_of_run
    (r := (State.start : State ℕ).run isPlain
      (makeCalls 0 16 7 ++ makeCalls 1 32 8 ++ [.drop 0, .free 0 false]))
    (P := fun s => (s.address 0 = 16 ∧ s.live.map (fun e => (e.owner, e.plugin)) = [(0, 16), (1, 32)]) ∧
      ((s.next (.detach 0)).any fun t => decide (t.phase 1 = .live ∧ t.phase 0 = .detached false ∧
        t.live.map Entry.owner = [1])) = true) (by decide +kernel)
  obtain ⟨t, ht, hend⟩ := end_of_run hnext
  have hs := reach_run aloneAtAddress_of_isPlain hs
  have halone : AloneAtAddress s (.detach 0) := by
    intro j hj hkept
    obtain ⟨e, he, howner, hplugin⟩ := (counted_of_reach hs).exists_entry hkept
    have hmem : (j, s.address j) ∈ s.live.map fun e => (e.owner, e.plugin) :=
      List.mem_map.mpr ⟨e, he, by rw [howner, hplugin]⟩
    rw [hlive.2] at hmem
    rcases List.mem_cons.mp hmem with hzero | hmem
    · exact absurd (Prod.mk.inj hzero).1 hj
    · rw [(Prod.mk.inj (List.mem_singleton.mp hmem)).2, hlive.1]
      decide
  have ht : Reach step AloneAtAddress State.start t := .tail hs halone ht
  exact ⟨t, ht, hend.1, hend.2.1, hend.2.2, registry_complete ht⟩

/-- The allocator: boxes of zero-sized types have the dangling address, and any other box an address
that no allocated box has. The address of a freed box may be handed out again. -/
def Allocates (zeroSized : ℕ → Bool) (dangling : Address) (s : State H) : Act H → Prop
  | .make _ host => host.isSome
  | .box i a =>
    if zeroSized i then a = dangling else a ≠ dangling ∧ ∀ j, s.phase j = .boxed ∨
      s.phase j = .attached ∨ s.phase j = .live ∨ s.phase j = .dropping → s.address j ≠ a
  | _ => True

/-- The steps that `Allocates` allows in any state when every instance is zero-sized. -/
def isZeroSized : Act H → Bool
  | .make _ host => host.isSome
  | .box _ a => decide (a = 1)
  | _ => true

theorem allocates_of_isZeroSized (s : State H) (a : Act H) (h : isZeroSized a) :
    Allocates (fun _ => true) 1 s a := by
  cases a with
  | make i host => exact h
  | box i address =>
    have haddress : address = 1 := of_decide_eq_true h
    simpa [Allocates] using haddress
  | _ => trivial

/-- **Dropping one instance silences another.** Two instances of a zero-sized type are live; one is
dropped, and the other is left without an entry. -/
theorem shared_address_silences :
    ¬ ∀ (zeroSized : ℕ → Bool) (dangling : Address) (s : State ℕ),
      Reach step (Allocates zeroSized dangling) State.start s → Complete s := by
  intro h
  obtain ⟨s, hs, hlive, hnone⟩ := end_of_run
    (r := (State.start : State ℕ).run isZeroSized
      (makeCalls 0 1 7 ++ makeCalls 1 1 8 ++ dropCalls 0 false))
    (P := fun s => s.phase 1 = .live ∧ s.entries 1 = 0) (by decide +kernel)
  have hreach := reach_run allocates_of_isZeroSized hs
  have hone := (h (fun _ => true) 1 s hreach).one 1 hlive
  rw [hnone] at hone
  cases hone

end PluginLog

end McpgSdk
