import McpgSdk.Inventory.Details

/-!
# The describe hook

A plugin may add details to the events of what changed. Its hook is any function with any state; the
inventory with the hook is compared with the same inventory without it, over one and the same run.

* `bare`: an inventory without its hook, with what the operations do to it (`emitAll_bare_fst`,
  `pollCore_bare_fst`, `acknowledged_bare`);
* `describedBy`: an emitted change with the details of its key; **`pollCore_bare_snd`**: with a hook a
  poll emits what it emits without, so described;
* `details_at`: the details of the entry at a position are the hook's output at that position;
* **`hook_undisturbing`**: along every run, the hook moves nothing but its own state.
-/

set_option autoImplicit false

namespace McpgSdk

open OrdMap

namespace Inventory

/-- The inventory without its hook. -/
def bare (inv : Inventory) : Inventory := { inv with describe := none }

/-- The field of an event's data, if it is there. -/
def field (e : WatchEvent) (name : String) : Option Json := e.data.bind (Json.get? name)

/-- The emitted change with the details of its key. -/
def describedBy (extras : BTreeMap String Fields) (m : Emitted) : Emitted :=
  { m with event := addDetails extras[m.change.entry.key]? m.event }

/-- The emitted changes of what was created or modified, in order. -/
def alive (ms : List Emitted) : List Emitted := ms.filter fun m => m.change.op != .deleted

/-! ## Operations without the hook -/

theorem forget_bare (current : BTreeMap String ObjectEntry) (inv : Inventory) :
    forget current inv.bare = (forget current inv).bare := by
  unfold forget
  by_cases hq : inv.quietRemovals = true
  · rw [if_pos hq, if_pos (show inv.bare.quietRemovals = true from hq)]
    rfl
  · rw [if_neg hq, if_neg (show ¬ inv.bare.quietRemovals = true from hq)]

theorem snapshot_bare (inv : Inventory) (k : String) (d : Option String) :
    inv.bare.snapshot k d = ((inv.snapshot k d).1.bare, (inv.snapshot k d).2) := by
  rw [snapshot_eq, snapshot_eq]
  by_cases hfit : snapshotSize (patch inv.confirmed k d) ≤ inv.options.snapshotBytes
  · rw [if_pos hfit, if_pos (show snapshotSize (patch inv.bare.confirmed k d) ≤
      inv.bare.options.snapshotBytes from hfit)]
    rfl
  · rw [if_neg hfit, if_neg (show ¬ snapshotSize (patch inv.bare.confirmed k d) ≤
      inv.bare.options.snapshotBytes from hfit)]
    rfl

theorem pushed_bare (now : Nanos) (last : Bool) (c : Change) (inv : Inventory) :
    pushed now last c inv.bare = ((pushed now last c inv).1.bare, (pushed now last c inv).2) := by
  cases last
  · rfl
  · exact snapshot_bare (inv.push now c) c.entry.key c.digest

theorem acknowledged_bare (inv : Inventory) (position : Json) :
    (inv.acknowledged position).bare = inv.bare.acknowledged position := by
  cases ha : inv.acknowledges position with
  | none =>
    rw [acknowledged_of_none ha, acknowledged_of_none (show inv.bare.acknowledges _ = _ from ha)]
  | some p =>
    rw [acknowledged_of_some ha, acknowledged_of_some (show inv.bare.acknowledges _ = _ from ha)]
    rfl

theorem acknowledged_describe (inv : Inventory) (position : Json) :
    (inv.acknowledged position).describe = inv.describe := by
  cases ha : inv.acknowledges position with
  | none => rw [acknowledged_of_none ha]
  | some p => rw [acknowledged_of_some ha]

section Emit

variable (X : Externs) (now : Nanos) (take : ℕ)

theorem emitAll_bare_fst (index : ℕ) (cs : List Change) (extras : BTreeMap String Fields)
    (inv : Inventory) :
    (emitAll X now take index cs extras inv).1.bare = (emitAll X now take index cs ∅ inv.bare).1 := by
  induction cs generalizing index extras inv with
  | nil => rfl
  | cons c cs ih =>
    rw [emitAll_cons, emitAll_cons, Std.ExtTreeMap.erase_empty, pushed_bare]
    exact ih _ _ _

/-- With distinct keys, what is emitted is what is emitted without details, each with its own. -/
theorem emitAll_bare_snd (index : ℕ) {cs : List Change} (hn : (cs.map fun c => c.entry.key).Nodup)
    (extras : BTreeMap String Fields) (inv : Inventory) :
    (emitAll X now take index cs extras inv).2 =
      (emitAll X now take index cs ∅ inv.bare).2.map (describedBy extras) := by
  induction cs generalizing index extras inv with
  | nil => rfl
  | cons c cs ih =>
    rw [List.map_cons, List.nodup_cons] at hn
    have hrest := ih (index + 1) hn.2 (extras.erase c.entry.key) (pushed now (index + 1 = take) c inv).1
    rw [emitAll_cons, emitAll_cons, Std.ExtTreeMap.erase_empty, pushed_bare, List.map_cons]
    refine congrArg₂ List.cons ?_ ?_
    · simp only [describedBy, Std.ExtTreeMap.getElem?_empty]
      rfl
    · refine hrest.trans (List.map_congr_left fun m hm => ?_)
      -- the details already given away are those of another key
      have hne : m.change.entry.key ≠ c.entry.key := by
        intro heq
        have hin := List.mem_map_of_mem (f := Emitted.change) hm
        rw [emitAll_changes] at hin
        exact hn.1 (heq ▸ List.mem_map_of_mem (f := fun c : Change => c.entry.key) hin)
      rw [describedBy, describedBy, getElem?_erase_ite, if_neg hne]

end Emit

/-! ## Polls without the hook -/

section Poll

variable (X : Externs) (now : Nanos) (listing : List ObjectEntry) (inv : Inventory)

/-- The inventory whose changes a poll describes and emits. -/
def prepared : Inventory :=
  remember (currentOf listing) (forget (currentOf listing) { inv.live now with baseline := .known })

/-- The details the hook gives to the changes of a poll. -/
def extrasOf : BTreeMap String Fields :=
  ((inv.prepared now listing).details (inv.taken X now listing)).2

theorem pollCore_eq (hb : inv.baseline ≠ .silent) :
    inv.pollCore X now listing =
      emitAll X now (inv.taken X now listing).length 0 (inv.taken X now listing)
        (inv.extrasOf X now listing)
        ((inv.prepared now listing).details (inv.taken X now listing)).1 := by
  rw [pollCore, if_neg hb]
  rfl

theorem prepared_bare : inv.bare.prepared now listing = (inv.prepared now listing).bare := by
  have hforget := forget_bare (currentOf listing) { inv.live now with baseline := .known }
  exact congrArg (remember (currentOf listing)) hforget

theorem details_bare (cs : List Change) : (inv.details cs).1.bare = inv.bare := by
  rw [details_fst]
  rfl

theorem pollCore_bare (hb : inv.baseline ≠ .silent) :
    inv.bare.pollCore X now listing =
      emitAll X now (inv.taken X now listing).length 0 (inv.taken X now listing) ∅
        (inv.prepared now listing).bare := by
  rw [pollCore_eq X now listing inv.bare hb, extrasOf, prepared_bare]
  rfl

/-- **What a poll does to the state does not depend on the hook.** -/
theorem pollCore_bare_fst :
    (inv.pollCore X now listing).1.bare = (inv.bare.pollCore X now listing).1 := by
  by_cases hb : inv.baseline = .silent
  · rw [pollCore_silent X now listing hb,
      pollCore_silent X now listing (show inv.bare.baseline = .silent from hb)]
    rfl
  · rw [pollCore_bare X now listing inv hb, pollCore_eq X now listing inv hb, emitAll_bare_fst,
      details_bare]

/-- **With a hook a poll emits what it emits without**, each change with the details of its key. -/
theorem pollCore_bare_snd (hw : inv.WF) :
    (inv.pollCore X now listing).2 =
      (inv.bare.pollCore X now listing).2.map (describedBy (inv.extrasOf X now listing)) := by
  by_cases hb : inv.baseline = .silent
  · rw [pollCore_silent X now listing hb,
      pollCore_silent X now listing (show inv.bare.baseline = .silent from hb)]
    rfl
  · rw [pollCore_bare X now listing inv hb, pollCore_eq X now listing inv hb,
      emitAll_bare_snd X now _ 0 (nodup_taken X now listing hw), details_bare]

end Poll

/-! ## What the hook is asked and what it answers -/

/-- The entries the hook is asked about: what was created or modified, in order. -/
def askedOf (cs : List Change) : List ObjectEntry :=
  (cs.filter fun c => c.op != .deleted).map Change.entry

theorem details_hook {inv : Inventory} {d : Describe} (hd : inv.describe = some d)
    (cs : List Change) :
    inv.details cs = if askedOf cs = [] then (inv, ∅)
      else ({ inv with describe := some ⟨d.reply, d.asked ++ [askedOf cs]⟩ },
        .ofList (((askedOf cs).zip (d.reply d.asked (askedOf cs))).filterMap fun ex =>
          ex.2.map fun extra => (ex.1.key, extra))) := by
  unfold details
  rw [hd]
  exact if_congr List.isEmpty_iff rfl rfl

/-- The hook is called once when there is something to ask, and not otherwise. -/
theorem details_describe {inv : Inventory} {d : Describe} (hd : inv.describe = some d)
    (cs : List Change) :
    (inv.details cs).1.describe =
      some ⟨d.reply, if askedOf cs = [] then d.asked else d.asked ++ [askedOf cs]⟩ := by
  rw [details_hook hd]
  by_cases hempty : askedOf cs = []
  · rw [if_pos hempty, if_pos hempty]
    exact hd
  · rw [if_neg hempty, if_neg hempty]

/-- **The details of the entry at a position** are the hook's output at that position, none when the
output is too short. -/
theorem details_at {inv : Inventory} {d : Describe} (hd : inv.describe = some d) {cs : List Change}
    (hn : ((askedOf cs).map ObjectEntry.key).Nodup) {i : ℕ} {e : ObjectEntry}
    (he : (askedOf cs)[i]? = some e) :
    (inv.details cs).2[e.key]? = (d.reply d.asked (askedOf cs))[i]?.join := by
  have hne : askedOf cs ≠ [] := by
    intro hempty
    rw [hempty] at he
    cases he
  have hkey : ((askedOf cs).map ObjectEntry.key)[i]? = some e.key := by
    rw [List.getElem?_map, he]
    rfl
  have hzip := getElem?_ofList_zip hn (d.reply d.asked (askedOf cs)) hkey
  rw [valued, List.zip_map_left, List.filterMap_map] at hzip
  rw [← hzip, details_hook hd, if_neg hne]
  rfl

theorem askedOf_alive (ms : List Emitted) :
    askedOf (ms.map Emitted.change) = (alive ms).map fun m => m.change.entry := by
  rw [askedOf, alive, List.filter_map, List.map_map]
  rfl

theorem field_addDetails {e : WatchEvent} {fields : Fields} (he : e.data = some (.obj fields))
    (extra : Option Fields) (name : String) :
    field (addDetails extra e) name = (field e name).or (extra.bind fun fs => fs.lookup name) := by
  cases extra with
  | none =>
    rw [Option.bind_none, Option.or_none]
    rfl
  | some fs =>
    simp only [field, addDetails, he, Option.bind_some, Json.get?_obj]
    exact Json.lookup_foldl_orInsert fs fields name

/-! ## One poll with the hook -/

/-- The event with details tells the host what the event without them does. -/
structure Undisturbed (e₀ e : WatchEvent) : Prop where
  eventId : e.eventId = e₀.eventId
  eventType : e.eventType = e₀.eventType
  occurredAt : e.occurredAt = e₀.occurredAt
  upstreamCursor : e.upstreamCursor = e₀.upstreamCursor
  gap : e.gap = e₀.gap
  kept : ∀ name v, field e₀ name = some v → field e name = some v

theorem undisturbed_addDetails {e : WatchEvent} {fields : Fields}
    (he : e.data = some (.obj fields)) (extra : Option Fields) :
    Undisturbed e (addDetails extra e) := by
  refine ⟨?_, ?_, ?_, ?_, ?_, fun name v hv => ?_⟩
  rotate_right
  · rw [field_addDetails he, hv, Option.some_or]
  all_goals rw [addDetails_eq]

section Hooked

variable {X : Externs} {inv : Inventory} (hw : inv.WF)

theorem data_of_emitted {now : Nanos} {listing : List ObjectEntry} {m : Emitted}
    (hm : m ∈ (inv.pollCore X now listing).2) : ∃ fields, m.event.data = some (.obj fields) := by
  obtain ⟨-, -, -, -, fields, hdata, -⟩ :=
    (pollCore_compare X now listing (baseline_of_emitted hm)).2.2.2 m hm
  exact ⟨fields, hdata⟩

include hw in
/-- **The events of a poll** come in the same order with the same ids, types, times and positions, and
keep every field they have without the hook. -/
theorem poll_undisturbed (now : Nanos) (listing : List ObjectEntry) :
    List.Forall₂ Undisturbed (inv.bare.poll X now listing).2 (inv.poll X now listing).2 := by
  have hsame : List.Forall₂ Undisturbed (if inv.gap then [{ gap := true }] else [])
      (if inv.gap then [{ gap := true }] else []) := by
    rw [List.forall₂_same]
    exact fun e _ => ⟨rfl, rfl, rfl, rfl, rfl, fun _ _ => id⟩
  refine List.rel_append hsame ?_
  rw [pollCore_bare_snd X now listing inv hw, List.map_map, List.forall₂_map_left_iff,
    List.forall₂_map_right_iff, List.forall₂_same]
  intro m hm
  obtain ⟨fields, hdata⟩ := data_of_emitted hm
  exact undisturbed_addDetails hdata _

include hw in
/-- **A deletion is unchanged.** -/
theorem deleted_undisturbed {now : Nanos} {listing : List ObjectEntry} {i : ℕ} {m₀ m : Emitted}
    (hm₀ : (inv.bare.pollCore X now listing).2[i]? = some m₀)
    (hm : (inv.pollCore X now listing).2[i]? = some m) (hop : m.change.op = .deleted) :
    m.event = m₀.event := by
  have hmem : m ∈ (inv.pollCore X now listing).2 := List.mem_of_getElem? hm
  rw [pollCore_bare_snd X now listing inv hw, List.getElem?_map, hm₀] at hm
  obtain rfl := Option.some.inj hm
  have htaken := taken_of_emitted hmem
  have hnone : (inv.extrasOf X now listing)[m₀.change.entry.key]? = none :=
    details_of_deleted (nodup_taken X now listing hw) htaken hop
  change addDetails (inv.extrasOf X now listing)[m₀.change.entry.key]? m₀.event = m₀.event
  rw [hnone]
  rfl

variable {d : Describe} (hd : inv.describe = some d)

theorem prepared_describe (inv : Inventory) (now : Nanos) (listing : List ObjectEntry) :
    (inv.prepared now listing).describe = inv.describe := by
  rw [prepared, forget_eq]
  rfl

/-- What a poll asks of the hook: the entries of the changes it emits that are no deletions. -/
def asksOf (X : Externs) (now : Nanos) (listing : List ObjectEntry) (inv : Inventory) :
    List ObjectEntry :=
  (alive (inv.pollCore X now listing).2).map fun m => m.change.entry

theorem asksOf_eq {now : Nanos} {listing : List ObjectEntry} (hb : inv.baseline ≠ .silent) :
    inv.asksOf X now listing = askedOf (inv.taken X now listing) := by
  rw [asksOf, ← askedOf_alive, (pollCore_compare X now listing hb).1]

include hd in
/-- **The hook is called at most once in a poll**, exactly when something created or modified is
reported, with exactly these entries in order. -/
theorem poll_describe (now : Nanos) (listing : List ObjectEntry) :
    (inv.pollCore X now listing).1.describe = some ⟨d.reply,
      if inv.asksOf X now listing = [] then d.asked
      else d.asked ++ [inv.asksOf X now listing]⟩ := by
  by_cases hb : inv.baseline = .silent
  · rw [asksOf, pollCore_silent X now listing hb]
    exact hd
  · have hstate := congrArg describe (emitAll_state X now (inv.taken X now listing).length 0
      (inv.taken X now listing) (inv.extrasOf X now listing)
      ((inv.prepared now listing).details (inv.taken X now listing)).1)
    rw [asksOf_eq hb, pollCore_eq X now listing inv hb]
    refine hstate.trans ?_
    exact details_describe ((prepared_describe inv now listing).trans hd) _

include hw hd in
/-- **The fields added to the event of the entry at a position** are those of the hook's output at that
position. -/
theorem field_of_alive {now : Nanos} {listing : List ObjectEntry} {i : ℕ} {m₀ m : Emitted}
    (hm₀ : (alive (inv.bare.pollCore X now listing).2)[i]? = some m₀)
    (hm : (alive (inv.pollCore X now listing).2)[i]? = some m) (name : String) :
    field m.event name = (field m₀.event name).or
      ((d.reply d.asked (inv.asksOf X now listing))[i]?.join.bind fun fs => fs.lookup name) := by
  have hb : inv.baseline ≠ .silent :=
    baseline_of_emitted (List.mem_of_mem_filter (List.mem_of_getElem? hm))
  have hasks : (askedOf (inv.taken X now listing))[i]? = some m.change.entry := by
    rw [← asksOf_eq hb, asksOf, List.getElem?_map, hm]
    rfl
  have hnodup : ((askedOf (inv.taken X now listing)).map ObjectEntry.key).Nodup := by
    rw [askedOf, List.map_map]
    exact (nodup_taken X now listing hw).sublist (List.filter_sublist.map _)
  have hextra := details_at ((prepared_describe inv now listing).trans hd) hnodup hasks
  have hmap : alive (inv.pollCore X now listing).2 =
      (alive (inv.bare.pollCore X now listing).2).map (describedBy (inv.extrasOf X now listing)) := by
    rw [pollCore_bare_snd X now listing inv hw, alive, alive, List.filter_map]
    rfl
  rw [hmap, List.getElem?_map, hm₀] at hm
  obtain rfl := Option.some.inj hm
  obtain ⟨fields, hdata⟩ := data_of_emitted (List.mem_of_mem_filter (List.mem_of_getElem? hm₀))
  rw [asksOf_eq hb, ← hextra]
  exact field_addDetails hdata _ name

end Hooked

end Inventory

namespace History

variable {X : Externs}

theorem bare_step {h h' : History} (heq : h.inv.bare = h'.inv) (a : Act) :
    (h.step X a).inv.bare = (h'.step X a).inv := by
  cases a with
  | poll now listing =>
    change (h.inv.pollCore X now listing).1.bare = (h'.inv.pollCore X now listing).1
    rw [Inventory.pollCore_bare_fst, heq]
  | ack position =>
    change (h.inv.acknowledged position).bare = h'.inv.acknowledged position
    rw [Inventory.acknowledged_bare, heq]

theorem bare_run {h h' : History} (heq : h.inv.bare = h'.inv) (acts : List Act) :
    (h.run X acts).inv.bare = (h'.run X acts).inv := by
  induction acts generalizing h h' with
  | nil => exact heq
  | cons a acts ih => exact ih (bare_step heq a)

theorem describe_run {h : History} {reply : List (List ObjectEntry) → List ObjectEntry →
    List (Option Fields)} (hd : ∃ asked, h.inv.describe = some ⟨reply, asked⟩) (acts : List Act) :
    ∃ asked, (h.run X acts).inv.describe = some ⟨reply, asked⟩ := by
  induction acts generalizing h with
  | nil => exact hd
  | cons a acts ih =>
    obtain ⟨asked, hd⟩ := hd
    refine ih ?_
    cases a with
    | poll now listing => exact ⟨_, Inventory.poll_describe hd now listing⟩
    | ack position =>
      exact ⟨asked, (Inventory.acknowledged_describe h.inv position).trans hd⟩

/-- **The describe hook cannot disturb the watch.** Take any run with any hook and the same run without
it. After each step the state is the same, the hook aside. In the next poll, the events come in the same
order with the same ids, types, times and positions and keep their fields; deletions are unchanged; the
fields of the event of the `i`-th entry the hook is asked about are its own and beside them those of
the hook's `i`-th output; and the hook is called at most once, exactly when something created or
modified is reported, with exactly these entries in order. An acknowledgement does not call it. -/
theorem hook_undisturbing {inv₀ : Inventory} (h₀ : Inventory.Started X inv₀) (d : Describe)
    (acts : List Act) :
    let hooked := ((start (inv₀.withDescribe d)).run X acts).inv
    let plain := ((start inv₀.bare).run X acts).inv
    hooked.bare = plain ∧
    ∃ asked, hooked.describe = some ⟨d.reply, asked⟩ ∧
      (∀ position, (hooked.acknowledged position).describe = some ⟨d.reply, asked⟩) ∧
      ∀ (now : Nanos) (listing : List ObjectEntry),
        let r := hooked.pollCore X now listing
        let r₀ := plain.pollCore X now listing
        let asks := (Inventory.alive r.2).map fun m => m.change.entry
        r.1.describe = some ⟨d.reply, if asks = [] then asked else asked ++ [asks]⟩ ∧
        List.Forall₂ Inventory.Undisturbed (plain.poll X now listing).2
          (hooked.poll X now listing).2 ∧
        r.2.map Emitted.change = r₀.2.map Emitted.change ∧
        (∀ (i : ℕ) (m₀ m : Emitted), r₀.2[i]? = some m₀ → r.2[i]? = some m →
          m.change.op = .deleted → m.event = m₀.event) ∧
        ∀ (i : ℕ) (m₀ m : Emitted), (Inventory.alive r₀.2)[i]? = some m₀ →
          (Inventory.alive r.2)[i]? = some m → ∀ name,
            Inventory.field m.event name = (Inventory.field m₀.event name).or
              ((d.reply asked asks)[i]?.join.bind fun fs => fs.lookup name) := by
  intro hooked plain
  have hbare : hooked.bare = plain := bare_run rfl acts
  have hstarted : Inventory.Started X (inv₀.withDescribe d) := by
    obtain ⟨options, resume, inv, hook, quiet, hnew, rfl⟩ := h₀
    exact ⟨options, resume, inv, some d, quiet, hnew, rfl⟩
  have hw : hooked.WF := (inv_of_reach hstarted (reach_run X _ acts)).wf
  obtain ⟨asked, hd⟩ := describe_run (X := X) (h := start (inv₀.withDescribe d)) ⟨d.asked, rfl⟩ acts
  refine ⟨hbare, asked, hd, fun position => ?_, fun now listing => ?_⟩
  · exact (Inventory.acknowledged_describe hooked position).trans hd
  rw [← hbare]
  refine ⟨Inventory.poll_describe hd now listing, Inventory.poll_undisturbed hw now listing, ?_, ?_, ?_⟩
  · rw [Inventory.pollCore_bare_snd X now listing hooked hw, List.map_map]
    rfl
  · exact fun i m₀ m => Inventory.deleted_undisturbed hw
  · exact fun i m₀ m => Inventory.field_of_alive hw hd

/-- A hook that tries to rename what it is asked about, and answers for one entry more. -/
def renamer : Describe where
  reply _ entries := entries.map (fun _ => some [("key", .str "x"), ("note", .str "n")]) ++ [none]
  asked := []

/-- One object is there, before another takes its place. -/
def swaps : List Act := [.poll 0 [{ key := "a" }]]

theorem hook_undisturbing_renamer :
    ((start (Inventory.plainInventory.withDescribe renamer)).run plainExterns swaps).inv.bare =
        ((start Inventory.plainInventory.bare).run plainExterns swaps).inv ∧
      ((((start (Inventory.plainInventory.withDescribe renamer)).run plainExterns swaps).inv.poll
        plainExterns 1 [{ key := "b" }]).2.map fun e =>
          (((Inventory.field e "key").bind Json.asStr), ((Inventory.field e "note").bind Json.asStr))) =
        [(some "b", some "n"), (some "a", none)] :=
  ⟨(hook_undisturbing Inventory.plainInventory_started renamer swaps).1, by decide +kernel⟩

end History

end McpgSdk
