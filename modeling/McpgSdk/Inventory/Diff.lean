import McpgSdk.Inventory.Model

/-!
# What a poll and an acknowledgement do

One specification for each operation of the inventory; later modules use these and do not unfold
the operations.

* `acknowledged_of_some`: an acknowledgement that takes effect patches the confirmed listing at one
  key and drops every change up to it;
* `mem_changes`, `nodup_changes`: the changes a listing makes are the keys on which it differs from
  the confirmed listing and that are not in flight, each once;
* `emitAll_seqs`, `emitAll_state`, `emitAll_event`: emitting puts the changes in the window under
  consecutive sequence numbers, and every event tells its change;
* `pollCore_silent`, **`pollCore_compare`**: a poll sets the baseline, or compares the listing with
  the confirmed one.
-/

set_option autoImplicit false

namespace McpgSdk

open OrdMap

namespace Inventory

/-! ## Acknowledgements -/

@[simp] theorem positionSeq_toValue (c : Cursor) : positionSeq c.toValue = some c.seq := by
  simp [positionSeq, Cursor.toValue, List.lookup]

theorem filter_eraseP_seq (l : List Pending) (s : ℕ) :
    (l.eraseP fun q => q.seq == s).filter (fun q => q.seq > s) = l.filter fun q => q.seq > s := by
  induction l with
  | nil => rfl
  | cons p l ih =>
    by_cases hp : p.seq = s
    · simp [hp]
    · simp only [List.eraseP_cons, beq_eq_false_iff_ne.mpr hp, cond_false, List.filter_cons, ih]

theorem acknowledges_eq_some {inv : Inventory} {position : Json} {p : Pending}
    (h : inv.acknowledges position = some p) :
    positionSeq position = some p.seq ∧ p ∈ inv.pending := by
  obtain ⟨seq, hseq, hf⟩ := Option.bind_eq_some_iff.mp h
  have hp := List.find?_some hf
  rw [beq_iff_eq] at hp
  exact ⟨hp ▸ hseq, List.mem_of_find?_eq_some hf⟩

theorem exists_acknowledges {inv : Inventory} {position : Json} {seq : ℕ}
    (hseq : positionSeq position = some seq) (h : ∃ p ∈ inv.pending, p.seq = seq) :
    ∃ p, inv.acknowledges position = some p ∧ p.seq = seq := by
  obtain ⟨p, hp⟩ : ∃ p, inv.acknowledges position = some p := by
    refine Option.isSome_iff_exists.mp ?_
    rw [acknowledges, hseq]
    obtain ⟨p, hp, hpseq⟩ := h
    exact List.find?_isSome.mpr ⟨p, hp, beq_iff_eq.mpr hpseq⟩
  exact ⟨p, hp, Option.some.inj ((acknowledges_eq_some hp).1.symm.trans hseq)⟩

theorem acknowledged_of_none {inv : Inventory} {position : Json}
    (h : inv.acknowledges position = none) : inv.acknowledged position = inv := by
  simp only [acknowledged, h]

theorem acknowledged_of_some {inv : Inventory} {position : Json} {p : Pending}
    (h : inv.acknowledges position = some p) :
    inv.acknowledged position = { inv with
      pending := inv.pending.filter fun q => q.seq > p.seq
      confirmed := patch inv.confirmed p.key p.digest
      seen := if p.digest = none then inv.seen.erase p.key else inv.seen } := by
  simp only [acknowledged, h, filter_eraseP_seq]
  cases hd : p.digest <;> simp [patch]

/-- An acknowledgement leaves in the window what comes after its change. -/
theorem mem_pending_acknowledged {inv : Inventory} {position : Json} {p q : Pending}
    (h : inv.acknowledges position = some p) :
    q ∈ (inv.acknowledged position).pending ↔ q ∈ inv.pending ∧ p.seq < q.seq := by
  rw [acknowledged_of_some h]
  exact List.mem_filter.trans (and_congr_right' decide_eq_true_iff)

/-! ## Listings -/

theorem key_of_currentOf {listing : List ObjectEntry} {k : String} {e : ObjectEntry}
    (h : (currentOf listing)[k]? = some e) : e.key = k := by
  obtain ⟨e', _, he⟩ := List.mem_map.mp (mem_of_getElem?_ofList h)
  obtain ⟨hk, rfl⟩ := Prod.mk.inj he
  exact hk

theorem getElem?_digestsOf (X : Externs) (current : BTreeMap String ObjectEntry) (k : String) :
    (digestsOf X current)[k]? = current[k]?.map (ObjectEntry.digest X) :=
  Std.ExtTreeMap.getElem?_map

/-! ## Changes -/

/-- The operation that leads from what is confirmed of a key to what is listed. -/
def opOf : Option String → Option String → ObjectOp
  | _, none => .deleted
  | none, some _ => .created
  | some _, some _ => .modified

/-- Every remembered entry is kept under its own key. -/
def SeenKeyed (inv : Inventory) : Prop :=
  ∀ (k : String) (e : ObjectEntry), inv.seen[k]? = some e → e.key = k

theorem deletion_key {inv : Inventory} (hs : inv.SeenKeyed) (k : String) :
    (inv.deletion k).entry.key = k := by
  unfold deletion
  cases h : inv.seen[k]? with
  | none => rfl
  | some e => exact hs k e h

theorem listedChange_eq_some {X : Externs} {inv : Inventory} {k : String} {e : ObjectEntry}
    {c : Change} : inv.listedChange X k e = some c ↔
      inv.pendingDigest k ≠ some (some (e.digest X)) ∧ inv.confirmed[k]? ≠ some (e.digest X) ∧
        c = ⟨opOf inv.confirmed[k]? (some (e.digest X)), e, some (e.digest X)⟩ := by
  unfold listedChange
  split_ifs with hp
  · simp [hp]
  · cases hc : inv.confirmed[k]? with
    | none => simp [hp, opOf, eq_comm]
    | some known =>
      by_cases hk : known = e.digest X
      · simp [hk]
      · simp [hk, hp, opOf, eq_comm]

theorem mem_gone {inv : Inventory} {current : BTreeMap String ObjectEntry} {k : String} :
    k ∈ inv.gone current ↔
      inv.confirmed[k]? ≠ none ∧ current[k]? = none ∧ inv.pendingDigest k ≠ some none := by
  simp only [gone, List.mem_filter, Std.ExtTreeMap.mem_keys, Bool.and_eq_true, bne_iff_ne,
    Bool.not_eq_true', Std.ExtTreeMap.mem_iff_isSome_getElem?]
  have hc : current.contains k = false ↔ current[k]? = none := by
    rw [Std.ExtTreeMap.contains_eq_isSome_getElem?]
    cases current[k]? <;> simp
  rw [hc]
  cases inv.confirmed[k]? <;> simp

theorem mem_changes {X : Externs} {inv : Inventory} {listing : List ObjectEntry}
    (hs : inv.SeenKeyed) {c : Change} (h : c ∈ inv.changes X (currentOf listing)) :
    let target := (digestsOf X (currentOf listing))[c.entry.key]?
    c.digest = target ∧ inv.confirmed[c.entry.key]? ≠ target ∧
      inv.pendingDigest c.entry.key ≠ some target ∧
      c.op = opOf inv.confirmed[c.entry.key]? target := by
  rcases List.mem_append.mp h with h | h
  · obtain ⟨⟨k, e⟩, hke, hc⟩ := List.mem_filterMap.mp h
    rw [Std.ExtTreeMap.mem_toList_iff_getElem?_eq_some] at hke
    obtain ⟨hp, hne, rfl⟩ := listedChange_eq_some.mp hc
    obtain rfl := key_of_currentOf hke
    rw [getElem?_digestsOf, hke, Option.map_some]
    exact ⟨rfl, hne, hp, rfl⟩
  · split_ifs at h
    · cases h
    obtain ⟨k, hk, rfl⟩ := List.mem_map.mp h
    obtain ⟨hconf, hcur, hp⟩ := mem_gone.mp hk
    rw [deletion_key hs, getElem?_digestsOf, hcur, Option.map_none]
    exact ⟨rfl, hconf, hp, by cases inv.confirmed[k]? <;> rfl⟩

theorem exists_change {X : Externs} {inv : Inventory} {listing : List ObjectEntry}
    (hs : inv.SeenKeyed) {k : String}
    (hq : (digestsOf X (currentOf listing))[k]? = none → inv.quietRemovals = false)
    (hne : inv.confirmed[k]? ≠ (digestsOf X (currentOf listing))[k]?)
    (hp : inv.pendingDigest k ≠ some (digestsOf X (currentOf listing))[k]?) :
    ∃ c ∈ inv.changes X (currentOf listing), c.entry.key = k := by
  rw [getElem?_digestsOf] at hne hp hq
  cases hc : (currentOf listing)[k]? with
  | none =>
    rw [hc, Option.map_none] at hne hp hq
    refine ⟨_, List.mem_append_right _ ?_, deletion_key hs k⟩
    rw [if_neg (by simp [hq rfl])]
    exact List.mem_map_of_mem (mem_gone.mpr ⟨hne, hc, hp⟩)
  | some e =>
    rw [hc, Option.map_some] at hne hp
    refine ⟨⟨opOf inv.confirmed[k]? (some (e.digest X)), e, some (e.digest X)⟩,
      List.mem_append_left _ (List.mem_filterMap.mpr ⟨(k, e), ?_, ?_⟩), key_of_currentOf hc⟩
    · exact Std.ExtTreeMap.mem_toList_iff_getElem?_eq_some.mpr hc
    · exact listedChange_eq_some.mpr ⟨hp, hne, rfl⟩

theorem nodup_listed (X : Externs) (inv : Inventory) (listing : List ObjectEntry) :
    (((currentOf listing).toList.filterMap fun ke => inv.listedChange X ke.1 ke.2).map
      fun c => c.entry.key).Nodup := by
  have hd := (currentOf listing).nodup_keys
  rw [← Std.ExtTreeMap.map_fst_toList_eq_keys] at hd
  rw [List.Nodup, List.pairwise_map] at hd ⊢
  rw [List.pairwise_filterMap]
  refine hd.imp_of_mem ?_
  rintro ⟨k, e⟩ ⟨k', e'⟩ hm hm' hne c hc c' hc' heq
  rw [Std.ExtTreeMap.mem_toList_iff_getElem?_eq_some] at hm hm'
  obtain ⟨-, -, rfl⟩ := listedChange_eq_some.mp hc
  obtain ⟨-, -, rfl⟩ := listedChange_eq_some.mp hc'
  exact hne ((key_of_currentOf hm).symm.trans (heq.trans (key_of_currentOf hm')))

theorem nodup_changes {X : Externs} {inv : Inventory} (hs : inv.SeenKeyed)
    (listing : List ObjectEntry) :
    ((inv.changes X (currentOf listing)).map fun c => c.entry.key).Nodup := by
  unfold changes
  split_ifs
  · rw [List.append_nil]
    exact nodup_listed X inv listing
  · rw [List.map_append, List.nodup_append]
    refine ⟨nodup_listed X inv listing, ?_, ?_⟩
    · rw [List.map_map, show ((fun c : Change => c.entry.key) ∘ inv.deletion) = id from
        funext fun k => deletion_key hs k, List.map_id]
      exact inv.confirmed.nodup_keys.filter _
    · -- a key that left the listing is not listed
      intro a ha b hb hab
      obtain ⟨c, hc, rfl⟩ := List.mem_map.mp ha
      obtain ⟨⟨k, e⟩, hke, hce⟩ := List.mem_filterMap.mp hc
      rw [Std.ExtTreeMap.mem_toList_iff_getElem?_eq_some] at hke
      obtain ⟨-, -, rfl⟩ := listedChange_eq_some.mp hce
      obtain ⟨c', hc', rfl⟩ := List.mem_map.mp hb
      obtain ⟨k', hk', rfl⟩ := List.mem_map.mp hc'
      rw [deletion_key hs, show e.key = k from key_of_currentOf hke] at hab
      rw [hab, (mem_gone.mp hk').2.1] at hke
      cases hke

/-! ## Emitting -/

/-- The snapshot is the confirmed listing with one more change, when it fits. -/
theorem snapshot_eq (inv : Inventory) (k : String) (d : Option String) :
    inv.snapshot k d =
      if snapshotSize (patch inv.confirmed k d) ≤ inv.options.snapshotBytes then
        (inv, some (patch inv.confirmed k d)) else ({ inv with warned := true }, none) := by
  cases d <;> rfl

theorem snapshot_fst (inv : Inventory) (k : String) (d : Option String) :
    (inv.snapshot k d).1 = { inv with warned := (inv.snapshot k d).1.warned } := by
  rw [snapshot_eq]
  split_ifs <;> rfl

theorem addDetails_eq (extra : Option Fields) (e : WatchEvent) :
    addDetails extra e = { e with data := (addDetails extra e).data } := by
  unfold addDetails
  split <;> rfl

/-- The event's data name the key and the operation of its change. -/
def Tells (c : Change) (e : WatchEvent) : Prop :=
  ∃ fields, e.data = some (.obj fields) ∧ fields.lookup "key" = some (.str c.entry.key) ∧
    fields.lookup "op" = some (.str c.op.name)

theorem lookup_eventData (X : Externs) (inv : Inventory) (c : Change) {name : String}
    (h : name ≠ "size" ∧ name ≠ "modifiedAt" ∧ name ≠ "etag" ∧ name ≠ "version") :
    (inv.eventData X c).lookup name = List.lookup name
      [("key", .str c.entry.key), ("location", .str inv.options.location),
        ("op", .str c.op.name), ("store", .str inv.options.store)] := by
  obtain ⟨h1, h2, h3, h4⟩ := h
  unfold eventData
  cases c.entry.size <;> cases c.entry.modifiedAtMs.bind X.occurredAtFromMillis <;>
    cases c.entry.etag <;> cases c.entry.version <;>
    simp only [Json.lookup_set, h1, h2, h3, h4, if_false]

theorem tells_event (X : Externs) (inv : Inventory) (c : Change) (seq : ℕ)
    (snap : Option Digests) : Tells c (inv.event X c seq snap) := by
  refine ⟨_, rfl, ?_, ?_⟩
  · rw [lookup_eventData X inv c (by decide)]
    rfl
  · rw [lookup_eventData X inv c (by decide)]
    rfl

theorem lookup_orInsertAll {extra fields : Fields} {name : String} {v : Json}
    (h : fields.lookup name = some v) :
    (extra.foldl (fun d fv => Json.orInsert fv.1 fv.2 d) fields).lookup name = some v := by
  rw [Json.lookup_foldl_orInsert, h, Option.some_or]

theorem tells_addDetails {c : Change} {e : WatchEvent} (h : Tells c e) (extra : Option Fields) :
    Tells c (addDetails extra e) := by
  obtain ⟨fields, hd, hk, ho⟩ := h
  cases extra with
  | none => exact ⟨fields, hd, hk, ho⟩
  | some extra =>
    refine ⟨extra.foldl (fun d fv => Json.orInsert fv.1 fv.2 d) fields, ?_,
      lookup_orInsertAll hk, lookup_orInsertAll ho⟩
    simp only [addDetails, hd]

/-- The window entry of a change emitted at `now`. -/
def entryOf (now : Nanos) (e : Emitted) : Pending :=
  ⟨e.seq, e.change.entry.key, e.change.digest, now⟩

/-- The inventory a change is emitted from, after its own push and snapshot. -/
def pushed (now : Nanos) (last : Bool) (c : Change) (inv : Inventory) :
    Inventory × Option Digests :=
  if last then (inv.push now c).snapshot c.entry.key c.digest else (inv.push now c, none)

theorem emitAll_cons (X : Externs) (now : Nanos) (take index : ℕ) (c : Change)
    (rest : List Change) (extras : BTreeMap String Fields) (inv : Inventory) :
    emitAll X now take index (c :: rest) extras inv =
      let s := pushed now (index + 1 = take) c inv
      let r := emitAll X now take (index + 1) rest (extras.erase c.entry.key) s.1
      (r.1, ⟨c, inv.nextSeq, s.2, addDetails extras[c.entry.key]? (s.1.event X c inv.nextSeq s.2)⟩
        :: r.2) := by
  simp only [emitAll, pushed, decide_eq_true_eq]

theorem pushed_fst (now : Nanos) (last : Bool) (c : Change) (inv : Inventory) :
    (pushed now last c inv).1 =
      { inv.push now c with warned := (pushed now last c inv).1.warned } := by
  cases last
  · rfl
  · exact snapshot_fst _ _ _

theorem pushed_snd {now : Nanos} {last : Bool} {c : Change} {inv : Inventory} {m : Digests}
    (h : (pushed now last c inv).2 = some m) :
    m = patch inv.confirmed c.entry.key c.digest := by
  cases last
  · cases h
  · simp only [pushed, if_true, snapshot_eq] at h
    split_ifs at h
    exact (Option.some.inj h).symm

section Emit

variable (X : Externs) (now : Nanos) (take index : ℕ) (cs : List Change)
  (extras : BTreeMap String Fields) (inv : Inventory)

theorem emitAll_changes :
    (emitAll X now take index cs extras inv).2.map Emitted.change = cs := by
  induction cs generalizing index extras inv with
  | nil => rfl
  | cons c cs ih => rw [emitAll_cons, List.map_cons, ih]

theorem emitAll_seqs :
    (emitAll X now take index cs extras inv).2.map Emitted.seq =
      List.range' inv.nextSeq cs.length := by
  induction cs generalizing index extras inv with
  | nil => rfl
  | cons c cs ih =>
    rw [emitAll_cons, List.map_cons, ih, pushed_fst]
    rfl

theorem emitAll_state :
    let r := emitAll X now take index cs extras inv
    r.1 = { inv with
      nextSeq := inv.nextSeq + cs.length
      pending := inv.pending ++ r.2.map (entryOf now)
      warned := r.1.warned } := by
  induction cs generalizing index extras inv with
  | nil => simp [emitAll]
  | cons c cs ih =>
    rw [emitAll_cons]
    have h := ih (index + 1) (extras.erase c.entry.key) (pushed now (index + 1 = take) c inv).1
    dsimp only at h ⊢
    rw [h, pushed_fst]
    simp only [push, entryOf, List.length_cons, List.map_cons, List.append_assoc,
      List.singleton_append, Nat.add_right_comm, Nat.add_assoc]

theorem emitAll_snap {e : Emitted} {m : Digests}
    (he : e ∈ (emitAll X now take index cs extras inv).2) (hm : e.snap = some m) :
    m = patch inv.confirmed e.change.entry.key e.change.digest := by
  induction cs generalizing index extras inv with
  | nil => cases he
  | cons c cs ih =>
    rw [emitAll_cons] at he
    rcases List.mem_cons.mp he with rfl | he
    · exact pushed_snd hm
    · rw [ih _ _ _ he, pushed_fst]
      rfl

theorem emitAll_event {e : Emitted} (he : e ∈ (emitAll X now take index cs extras inv).2) :
    e.event.eventId = some ("obj-" ++ X.blake3Hex 32 (hashInput (inv.idParts e.change))) ∧
      e.event.eventType = some "object.changed" ∧
      e.event.upstreamCursor = some (Cursor.toValue ⟨cursorVersion, e.seq, e.snap⟩) ∧
      Tells e.change e.event := by
  induction cs generalizing index extras inv with
  | nil => cases he
  | cons c cs ih =>
    rw [emitAll_cons] at he
    rcases List.mem_cons.mp he with rfl | he
    · refine ⟨?_, ?_, ?_, tells_addDetails (tells_event X _ _ _ _) _⟩
      · dsimp only
        rw [addDetails_eq, pushed_fst]
        rfl
      · dsimp only
        rw [addDetails_eq]
        rfl
      · dsimp only
        rw [addDetails_eq]
        rfl
    · have h := ih _ _ _ he
      rw [pushed_fst] at h
      exact h

end Emit

/-! ## Polls -/

/-- The inventory a listing is compared in: expired changes dropped, the gap reported. -/
def live (now : Nanos) (inv : Inventory) : Inventory := { inv.expire now with gap := false }

/-- The part of the changes that fits the window. -/
def taken (X : Externs) (now : Nanos) (listing : List ObjectEntry) (inv : Inventory) :
    List Change :=
  ((inv.live now).changes X (currentOf listing)).take (inv.live now).room

theorem details_fst (inv : Inventory) (cs : List Change) :
    (inv.details cs).1 = { inv with describe := (inv.details cs).1.describe } := by
  unfold details
  split
  · rfl
  · dsimp only
    split_ifs <;> rfl

theorem forget_baseline (current : BTreeMap String ObjectEntry) (inv : Inventory) (b : Baseline) :
    forget current { inv with baseline := b } = { forget current inv with baseline := b } := by
  cases hq : inv.quietRemovals
  · simp only [forget, hq, Bool.false_eq_true, if_false]
  · simp only [forget, hq, if_true]
    rfl

theorem forget_eq (current : BTreeMap String ObjectEntry) (inv : Inventory) :
    forget current inv = { inv with
      confirmed := (forget current inv).confirmed
      seen := (forget current inv).seen } := by
  unfold forget
  split_ifs <;> rfl

theorem pollCore_silent (X : Externs) (now : Nanos) (listing : List ObjectEntry) {inv : Inventory}
    (h : inv.baseline = .silent) :
    inv.pollCore X now listing = ((inv.live now).setBaseline X (currentOf listing), []) := by
  simp only [pollCore, h, if_true]
  rfl

theorem baseline_of_emitted {X : Externs} {inv : Inventory} {now : Nanos} {listing : List ObjectEntry}
    {e : Emitted} (he : e ∈ (inv.pollCore X now listing).2) : inv.baseline ≠ .silent := by
  intro hb
  rw [pollCore_silent X now listing hb] at he
  cases he

/-- **A poll with a baseline** emits the changes that fit, and moves nothing else but the remembered
details, and under quiet removals the confirmed listing. -/
theorem pollCore_compare (X : Externs) (now : Nanos) (listing : List ObjectEntry)
    {inv : Inventory} (h : inv.baseline ≠ .silent) :
    let r := inv.pollCore X now listing
    let kept := forget (currentOf listing) (inv.live now)
    r.2.map Emitted.change = inv.taken X now listing ∧
      r.2.map Emitted.seq = List.range' inv.nextSeq (inv.taken X now listing).length ∧
      r.1 = { inv.live now with
        confirmed := kept.confirmed
        seen := (remember (currentOf listing) kept).seen
        nextSeq := inv.nextSeq + (inv.taken X now listing).length
        pending := (inv.live now).pending ++ r.2.map (entryOf now)
        baseline := .known
        warned := r.1.warned
        describe := r.1.describe } ∧
      ∀ e ∈ r.2,
        (∀ m, e.snap = some m → m = patch kept.confirmed e.change.entry.key e.change.digest) ∧
        e.event.eventId = some ("obj-" ++ X.blake3Hex 32 (hashInput (inv.idParts e.change))) ∧
        e.event.eventType = some "object.changed" ∧
        e.event.upstreamCursor = some (Cursor.toValue ⟨cursorVersion, e.seq, e.snap⟩) ∧
        Tells e.change e.event := by
  intro r kept
  set start := ((remember (currentOf listing) (forget (currentOf listing)
    { inv.live now with baseline := .known })).details (inv.taken X now listing)) with hstart
  have hr : r = emitAll X now (inv.taken X now listing).length 0 (inv.taken X now listing)
      start.2 start.1 := by
    simp only [r, pollCore, if_neg h]
    rfl
  have hs : start.1 = { inv.live now with
      confirmed := kept.confirmed
      seen := (remember (currentOf listing) kept).seen
      baseline := .known
      describe := start.1.describe } := by
    rw [hstart, details_fst, forget_baseline, forget_eq]
    rfl
  refine ⟨?_, ?_, ?_, fun e he => ?_⟩
  · rw [hr, emitAll_changes]
  · rw [hr, emitAll_seqs, hs]
    rfl
  · have hst := emitAll_state X now (inv.taken X now listing).length 0 (inv.taken X now listing)
      start.2 start.1
    rw [← hr] at hst
    dsimp only at hst
    rw [hst, hs]
    rfl
  · rw [hr] at he
    refine ⟨fun m hm => ?_, ?_⟩
    · rw [emitAll_snap X now _ _ _ _ _ he hm, hs]
    · have hev := emitAll_event X now _ _ _ _ _ he
      rw [hs] at hev
      exact hev

theorem pending_pollCore (X : Externs) (now : Nanos) (listing : List ObjectEntry) (inv : Inventory) :
    (inv.pollCore X now listing).1.pending =
      (inv.live now).pending ++ (inv.pollCore X now listing).2.map (entryOf now) := by
  by_cases hb : inv.baseline = .silent
  · rw [pollCore_silent X now listing hb, List.map_nil, List.append_nil]
    rfl
  · exact congrArg pending (pollCore_compare X now listing hb).2.2.1

theorem mem_pending_pollCore {X : Externs} {now : Nanos} {listing : List ObjectEntry}
    {inv : Inventory} {p : Pending} :
    p ∈ (inv.pollCore X now listing).1.pending ↔
      p ∈ (inv.live now).pending ∨ ∃ e ∈ (inv.pollCore X now listing).2, entryOf now e = p := by
  rw [pending_pollCore, List.mem_append, List.mem_map]

end Inventory

end McpgSdk
