import McpgSdk.Protocol

/-!
# Diffing and polling watches

A backend without a change channel is polled. The loop remembers the last state it was told of; when a
poll tells another one, it emits what changed between the two.

* `tick`, `loop`, `spawnDiffingWatch`, `spawnPollingWatch`: the loop, with the turn at which it sees the
  stop signal;
* `merged`, `moves`: the states the polls told, adjacent equal ones merged, and the steps between them;
* `loop_some`: from a remembered state on, the loop announces the steps from there;
* **`diffing_watch_exact`**: a diffing watch emits exactly the changes between successive states, so a
  consumer that applies them is at the last one.
-/

set_option autoImplicit false

namespace McpgSdk

namespace Diffing

/-- What a poll returns: the state, nothing to tell yet, or a failure that may pass. -/
abbrev PollResult (S : Type) : Type := Except String (Option S)

/-- A turn of the loop: it sees the stop signal, or it polls. -/
inductive Turn (S : Type)
  | stopped
  | polled (result : PollResult S)

/-- What a watch is spawned with: whether its resource is an MCP Events source, and how to tell what
changed between two states. -/
structure DiffingWatch (S : Type) where
  eventSource : Bool
  diff : S → S → List WatchEvent

/-- The text of a bare change: the host knows the resource, so the event is empty. -/
def bareChange (X : Externs) : String :=
  match X.eventToString {} with
  | .ok json => json
  | .error _ => "\x7b\x7d"

/-- The texts of some events. One that cannot be written is left out, with a warning. -/
def texts (X : Externs) (events : List WatchEvent) : List String :=
  events.filterMap fun e => (X.eventToString e).toOption

section Loop

variable {S : Type}

/-- What is emitted when the state moves: the events of the move, or one bare change. -/
def announce (X : Externs) (w : DiffingWatch S) (prev cur : S) : List String :=
  if w.eventSource then texts X (w.diff prev cur) else [bareChange X]

variable [BEq S]

/-- The comparison of the loop. -/
def Differs (a b : S) : Prop := (a != b) = true

instance (a b : S) : Decidable (Differs a b) := inferInstanceAs (Decidable ((a != b) = true))

/-- One poll: the state remembered after it, and what it emits. -/
def tick (X : Externs) (w : DiffingWatch S) (last : Option S) : PollResult S → Option S × List String
  | .ok (some cur) =>
    match last with
    -- the baseline is remembered without firing
    | none => (some cur, [])
    | some prev => if Differs prev cur then (some cur, announce X w prev cur) else (some prev, [])
  | .ok none => (last, [])
  | .error _ => (last, [])

/-- The loop, from what it remembers: everything it emits. -/
def loop (X : Externs) (w : DiffingWatch S) : Option S → List (Turn S) → List String
  | _, [] => []
  | _, .stopped :: _ => []
  | last, .polled result :: rest =>
    (tick X w last result).2 ++ loop X w (tick X w last result).1 rest

/-- A watch that tells what changed. -/
def spawnDiffingWatch (X : Externs) (w : DiffingWatch S) (turns : List (Turn S)) : List String :=
  loop X w none turns

/-- A watch of a scalar: whatever changed, the change is bare. -/
def spawnPollingWatch (X : Externs) (eventSource : Bool) (turns : List (Turn String)) :
    List String :=
  spawnDiffingWatch X ⟨eventSource, fun _ _ => [{}]⟩ turns

end Loop

/-! ## The states a watch is told -/

section Told

variable {S : Type}

/-- The results of the polls before the stop. -/
def beforeStop : List (Turn S) → List (PollResult S)
  | [] => []
  | .stopped :: _ => []
  | .polled result :: rest => result :: beforeStop rest

/-- The state a poll tells, if any. -/
def told : PollResult S → Option S
  | .ok state => state
  | .error _ => none

/-- The states some polls tell, adjacent equal ones merged. -/
def merged [BEq S] (results : List (PollResult S)) : List S :=
  (results.filterMap told).destutter Differs

/-- The steps from each state of a list to the next. -/
def moves (states : List S) : List (S × S) := states.zip states.tail

end Told

/-! ## The loop announces every step -/

section Steps

variable {S : Type}

theorem destutter_head (R : S → S → Prop) [DecidableRel R] (s : S) (l : List S) :
    ∃ rest, l.destutter' R s = s :: rest := by
  induction l generalizing s with
  | nil => exact ⟨[], rfl⟩
  | cons a l ih =>
    by_cases h : R s a
    · exact ⟨_, List.destutter'_cons_pos _ h⟩
    · rw [List.destutter'_cons_neg _ h]
      exact ih s

theorem moves_cons (R : S → S → Prop) [DecidableRel R] (s t : S) (l : List S) :
    moves (s :: l.destutter' R t) = (s, t) :: moves (l.destutter' R t) := by
  obtain ⟨rest, hrest⟩ := destutter_head R t l
  rw [hrest]
  rfl

variable [BEq S] (X : Externs) (w : DiffingWatch S)

/-- **From a remembered state on**, the loop announces the steps from there. -/
theorem loop_some (s : S) (turns : List (Turn S)) :
    loop X w (some s) turns =
      (moves (((beforeStop turns).filterMap told).destutter' Differs s)).flatMap
        fun p => announce X w p.1 p.2 := by
  induction turns generalizing s with
  | nil => rfl
  | cons turn turns ih =>
    cases turn with
    | stopped => rfl
    | polled result =>
      rw [loop, beforeStop]
      match result with
      | .error _ => exact ih s
      | .ok none => exact ih s
      | .ok (some cur) =>
        rw [List.filterMap_cons_some (show told (.ok (some cur)) = some cur from rfl)]
        by_cases hne : Differs s cur
        · rw [List.destutter'_cons_pos _ hne, moves_cons, List.flatMap_cons, ← ih cur]
          simp only [tick, if_pos hne]
        · rw [List.destutter'_cons_neg _ hne, ← ih s]
          simp only [tick, if_neg hne, List.nil_append]

theorem loop_none (turns : List (Turn S)) :
    loop X w none turns =
      (moves (merged (beforeStop turns))).flatMap fun p => announce X w p.1 p.2 := by
  induction turns with
  | nil => rfl
  | cons turn turns ih =>
    cases turn with
    | stopped => rfl
    | polled result =>
      rw [loop, beforeStop]
      match result with
      | .error _ => exact ih
      | .ok none => exact ih
      | .ok (some cur) =>
        have hfirst : merged (.ok (some cur) :: beforeStop turns) =
            ((beforeStop turns).filterMap told).destutter' Differs cur := rfl
        rw [hfirst, ← loop_some]
        rfl

end Steps

/-! ## What the emissions amount to -/

section Emissions

variable {S : Type}

theorem length_moves (states : List S) : (moves states).length = states.length - 1 := by
  rw [moves, List.length_zip, List.length_tail]
  omega

theorem flatMap_moves_const (states : List S) (json : String) :
    (moves states).flatMap (fun _ => [json]) = List.replicate (states.length - 1) json := by
  rw [← length_moves, ← List.map_const', ← List.flatMap_pure_eq_map]
  rfl

theorem texts_flatMap {α : Type} (X : Externs) (f : α → List WatchEvent) (l : List α) :
    l.flatMap (fun a => texts X (f a)) = texts X (l.flatMap f) :=
  (List.filterMap_flatMap).symm

theorem texts_of_ok {X : Externs} {events : List WatchEvent}
    (h : ∀ e ∈ events, ∃ json, X.eventToString e = .ok json) :
    (texts X events).map Except.ok = events.map X.eventToString := by
  induction events with
  | nil => rfl
  | cons e events ih =>
    obtain ⟨json, hjson⟩ := h e List.mem_cons_self
    have htexts : texts X (e :: events) = json :: texts X events := by
      rw [texts, List.filterMap_cons, hjson]
      rfl
    rw [htexts, List.map_cons, List.map_cons, hjson, ih fun e' he' => h e' (List.mem_cons_of_mem _ he')]

theorem foldl_moves {ε : Type} {f : S → S → List ε} {apply : S → ε → S}
    (hf : ∀ a b, (f a b).foldl apply a = b) (s : S) (rest : List S) :
    (s :: rest).getLast? =
      some (((moves (s :: rest)).flatMap fun p => f p.1 p.2).foldl apply s) := by
  induction rest generalizing s with
  | nil => rfl
  | cons t rest ih =>
    have hmoves : moves (s :: t :: rest) = (s, t) :: moves (t :: rest) := rfl
    rw [hmoves, List.flatMap_cons, List.foldl_append, hf s t, ← ih t, List.getLast?_cons_cons]

theorem getLast_destutter {R : S → S → Prop} [DecidableRel R] (hR : ∀ a b, ¬ R a b → a = b) (s : S)
    (l : List S) : (l.destutter' R s).getLast? = (s :: l).getLast? := by
  induction l generalizing s with
  | nil => rfl
  | cons t l ih =>
    by_cases h : R s t
    · obtain ⟨rest, hrest⟩ := destutter_head R t l
      rw [List.destutter'_cons_pos _ h, List.getLast?_cons_cons, ← ih t, hrest, List.getLast?_cons_cons]
    · obtain rfl := hR s t h
      rw [List.destutter'_cons_neg _ h, ih s, List.getLast?_cons_cons]

theorem getLast_merged [BEq S] (hlaw : ∀ a b : S, (a == b) = true → a = b)
    (results : List (PollResult S)) :
    (merged results).getLast? = (results.filterMap told).getLast? := by
  rw [merged]
  cases results.filterMap told with
  | nil => rfl
  | cons s l =>
    refine getLast_destutter (fun a b hab => hlaw a b ?_) s l
    rwa [Differs, bne, Bool.not_eq_true', Bool.not_eq_false] at hab

theorem beforeStop_polled (results : List (PollResult S)) :
    beforeStop (results.map Turn.polled) = results := by
  induction results with
  | nil => rfl
  | cons r results ih => exact congrArg (r :: ·) ih

end Emissions

/-- **A diffing watch emits exactly the changes between successive states.** Let `ss` be the states
told before the stop, adjacent equal ones merged. An event source gets the events of the steps of `ss`
in order, all of them when all can be written; any other resource gets one bare change for each step.
Nothing is emitted up to the first state, nor for a poll that tells none. So a consumer that applies
what is emitted goes from the first of `ss` to the last, which is the last state told when equal states
are the same. -/
theorem diffing_watch_exact {S : Type} [BEq S] (X : Externs) (w : DiffingWatch S)
    (turns : List (Turn S)) :
    let ss := merged (beforeStop turns)
    let events := (moves ss).flatMap fun p => w.diff p.1 p.2
    let out := spawnDiffingWatch X w turns
    let emitted := fun results : List (PollResult S) => spawnDiffingWatch X w (results.map .polled)
    (w.eventSource = true → out = texts X events ∧
      ((∀ e ∈ events, ∃ json, X.eventToString e = .ok json) →
        out.map Except.ok = events.map X.eventToString)) ∧
    (w.eventSource = false → out = List.replicate (ss.length - 1) (bareChange X)) ∧
    (∀ results r, results.filterMap told = [] → emitted (results ++ [r]) = []) ∧
    (∀ results r, told r = none → emitted (results ++ [r]) = emitted results) ∧
    (w.eventSource = true → ∀ apply : S → String → S,
      (∀ a b, (texts X (w.diff a b)).foldl apply a = b) →
        ∀ s₀, ss.head? = some s₀ → ss.getLast? = some (out.foldl apply s₀)) ∧
    (∀ apply : S → WatchEvent → S, (∀ a b, (w.diff a b).foldl apply a = b) →
        ∀ s₀, ss.head? = some s₀ → ss.getLast? = some (events.foldl apply s₀)) ∧
    ((∀ a b : S, (a == b) = true → a = b) →
      ss.getLast? = ((beforeStop turns).filterMap told).getLast?) := by
  intro ss events out emitted
  have hout : out = (moves ss).flatMap fun p => announce X w p.1 p.2 := loop_none X w turns
  have hemitted : ∀ results, emitted results =
      (moves (merged results)).flatMap fun p => announce X w p.1 p.2 := by
    intro results
    rw [← beforeStop_polled results, ← loop_none]
    exact congrArg (fun rs => spawnDiffingWatch X w (rs.map Turn.polled)) (beforeStop_polled results)
  have hsource : w.eventSource = true → out = texts X events := by
    intro hs
    rw [hout, ← texts_flatMap]
    simp only [announce, hs, if_true]
  refine ⟨fun hs => ⟨hsource hs, fun hok => ?_⟩, fun hs => ?_, fun results r hnone => ?_,
    fun results r hnone => ?_, fun hs apply happly s₀ hfirst => ?_, fun apply happly s₀ hfirst => ?_,
    fun hlaw => ?_⟩
  · rw [hsource hs]
    exact texts_of_ok hok
  · rw [hout, ← flatMap_moves_const]
    simp only [announce, hs, Bool.false_eq_true, if_false]
  · rw [hemitted, merged, List.filterMap_append, hnone, List.nil_append]
    cases hr : told r with
    | none =>
      rw [List.filterMap_cons_none hr]
      rfl
    | some s =>
      rw [List.filterMap_cons_some hr]
      rfl
  · rw [hemitted, hemitted, merged, List.filterMap_append, List.filterMap_cons_none hnone,
      List.filterMap_nil, List.append_nil]
    rfl
  · obtain ⟨rest, hss⟩ := List.head?_eq_some_iff.mp hfirst
    have htexts : out = (moves ss).flatMap fun p => texts X (w.diff p.1 p.2) :=
      (hsource hs).trans (texts_flatMap X _ _).symm
    rw [htexts, hss]
    exact foldl_moves happly s₀ rest
  · obtain ⟨rest, hss⟩ := List.head?_eq_some_iff.mp hfirst
    change ss.getLast? = some (((moves ss).flatMap fun p => w.diff p.1 p.2).foldl apply s₀)
    rw [hss]
    exact foldl_moves happly s₀ rest
  · exact getLast_merged hlaw (beforeStop turns)

/-- **A polling watch emits one bare change for each advance**, whatever its resource is. -/
theorem polling_watch_exact {X : Externs} {json : String} (hjson : X.eventToString {} = .ok json)
    (eventSource : Bool) (turns : List (Turn String)) :
    spawnPollingWatch X eventSource turns =
      List.replicate ((merged (beforeStop turns)).length - 1) json := by
  have hannounce : ∀ prev cur : String,
      announce X ⟨eventSource, fun _ _ => [{}]⟩ prev cur = [json] := by
    intro prev cur
    cases eventSource
    · simp [announce, bareChange, hjson]
    · simp [announce, texts, hjson, Except.toOption]
  rw [spawnPollingWatch, spawnDiffingWatch, loop_none, ← flatMap_moves_const]
  simp only [hannounce]

example : spawnPollingWatch plainExterns false
    ((["1", "1", "2", "2", "3"].map fun cur => Turn.polled (.ok (some cur))) ++ [.stopped]) =
      ["-", "-"] := by decide

end Diffing

end McpgSdk
