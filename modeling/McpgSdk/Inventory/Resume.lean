import McpgSdk.Inventory.Restart

/-!
# Which positions a start accepts

A start reads the stored position the way serde reads a struct: from an object, whose other fields are
ignored and whose `snap` may be null, or from an array of the fields in order. What an inventory writes
is less than that: an object with no other fields, of the current version, with no null.

* `CursorJson`: the values that are read as a cursor, said without the reader, with
  **`fromValue_eq_some`**: these are the values the reader takes;
* `Written`: the values an inventory writes;
* `new_refuses`, `new_of_cursor`: what a start makes of a value; `gap_of_poll`: when the first poll
  reports a gap;
* **`resume_accepts`**: every cursor of this version is accepted, what is no cursor is refused, and
  every position on an event is accepted;
* `unwritten_positions_accepted`: accepted, and written by no inventory of this version.
-/

set_option autoImplicit false

namespace McpgSdk

open OrdMap

/-! ## Values that are read as a cursor -/

/-- The field `snap` as serde reads an optional map of strings. -/
inductive SnapJson : Option Json → Option Digests → Prop
  | absent : SnapJson none none
  | null : SnapJson (some .null) none
  | map (kds : List (String × String)) :
    SnapJson (some (.obj (kds.map fun kd => (kd.1, .str kd.2)))) (some (.ofList kds))

/-- A value that is read as the cursor: an object with its fields, or an array of them. -/
inductive CursorJson : Json → Cursor → Prop
  | object {fields : Fields} {c : Cursor} (hv : fields.lookup "v" = some (.num (.posInt c.v)))
    (hseq : fields.lookup "seq" = some (.num (.posInt c.seq)))
    (hsnap : SnapJson (fields.lookup "snap") c.snap) : CursorJson (.obj fields) c
  | pair (v seq : ℕ) : CursorJson (.arr [.num (.posInt v), .num (.posInt seq)]) ⟨v, seq, none⟩
  | triple (v seq : ℕ) {j : Json} {snap : Option Digests} (hsnap : SnapJson (some j) snap) :
    CursorJson (.arr [.num (.posInt v), .num (.posInt seq), j]) ⟨v, seq, snap⟩

/-- What an inventory of this version writes. -/
def Written (p : Json) : Prop := ∃ c : Cursor, c.v = cursorVersion ∧ p = c.toValue

theorem asU64_eq_some {j : Json} {n : ℕ} : j.asU64 = some n ↔ j = .num (.posInt n) := by
  constructor
  · intro h
    unfold Json.asU64 at h
    split at h
    · rw [Option.some.inj h]
    · cases h
  · rintro rfl
    rfl

theorem asStr_eq_some {j : Json} {s : String} : j.asStr = some s ↔ j = .str s := by
  constructor
  · intro h
    unfold Json.asStr at h
    split at h
    · rw [Option.some.inj h]
    · cases h
  · rintro rfl
    rfl

theorem readDigests_eq_some {fields : Fields} {m : Digests} :
    readDigests fields = some m ↔
      ∃ kds : List (String × String), fields = kds.map (fun kd => (kd.1, .str kd.2)) ∧
        m = .ofList kds := by
  have hread : ∀ kds : List (String × String),
      (fields.mapM fun f : String × Json => f.2.asStr.map fun d => (f.1, d)) = some kds ↔
        fields = kds.map fun kd => (kd.1, .str kd.2) := by
    induction fields with
    | nil =>
      intro kds
      cases kds <;> simp
    | cons f fields ih =>
      intro kds
      obtain ⟨name, j⟩ := f
      rw [List.mapM_cons]
      constructor
      · intro h
        obtain ⟨kd, hkd, h⟩ := Option.bind_eq_some_iff.mp h
        obtain ⟨rest, hrest, h⟩ := Option.bind_eq_some_iff.mp h
        obtain ⟨d, hd, rfl⟩ := Option.map_eq_some_iff.mp hkd
        obtain rfl := Option.some.inj h
        obtain rfl := asStr_eq_some.mp (show j.asStr = some d from hd)
        rw [List.map_cons, ← (ih rest).mp hrest]
      · intro h
        cases kds with
        | nil => cases h
        | cons kd rest =>
          obtain ⟨hf, hrest⟩ := List.cons.inj h
          obtain ⟨rfl, rfl⟩ := Prod.mk.inj hf
          rw [(ih rest).mpr hrest]
          rfl
  rw [readDigests, Option.map_eq_some_iff]
  constructor
  · rintro ⟨kds, hkds, rfl⟩
    exact ⟨kds, (hread kds).mp hkds, rfl⟩
  · rintro ⟨kds, hkds, rfl⟩
    exact ⟨kds, (hread kds).mpr hkds, rfl⟩

theorem readSnap_eq_some {j : Option Json} {snap : Option Digests} :
    readSnap j = some snap ↔ SnapJson j snap := by
  constructor
  · intro h
    unfold readSnap at h
    split at h
    · obtain rfl := Option.some.inj h
      exact .absent
    · obtain rfl := Option.some.inj h
      exact .null
    · obtain ⟨m, hm, rfl⟩ := Option.map_eq_some_iff.mp h
      obtain ⟨kds, rfl, rfl⟩ := readDigests_eq_some.mp hm
      exact .map kds
    · cases h
  · intro h
    cases h with
    | absent => rfl
    | null => rfl
    | map kds => rw [readSnap, readDigests_eq_some.mpr ⟨kds, rfl, rfl⟩, Option.map_some]

/-- **The reader takes exactly the values that are read as a cursor.** -/
theorem Cursor.fromValue_eq_some {p : Json} {c : Cursor} :
    Cursor.fromValue p = some c ↔ CursorJson p c := by
  constructor
  · intro h
    unfold Cursor.fromValue at h
    split at h
    · obtain ⟨v, hv, h⟩ := Option.bind_eq_some_iff.mp h
      obtain ⟨seq, hseq, h⟩ := Option.bind_eq_some_iff.mp h
      obtain ⟨snap, hsnap, h⟩ := Option.bind_eq_some_iff.mp h
      obtain rfl := Option.some.inj h
      obtain ⟨jv, hjv, hv⟩ := Option.bind_eq_some_iff.mp hv
      obtain ⟨js, hjs, hseq⟩ := Option.bind_eq_some_iff.mp hseq
      rw [asU64_eq_some.mp hv] at hjv
      rw [asU64_eq_some.mp hseq] at hjs
      exact .object hjv hjs (readSnap_eq_some.mp hsnap)
    · obtain ⟨v, hv, h⟩ := Option.bind_eq_some_iff.mp h
      obtain ⟨seq, hseq, h⟩ := Option.bind_eq_some_iff.mp h
      obtain rfl := Option.some.inj h
      rw [asU64_eq_some.mp hv, asU64_eq_some.mp hseq]
      exact .pair v seq
    · obtain ⟨v, hv, h⟩ := Option.bind_eq_some_iff.mp h
      obtain ⟨seq, hseq, h⟩ := Option.bind_eq_some_iff.mp h
      obtain ⟨snap, hsnap, h⟩ := Option.bind_eq_some_iff.mp h
      obtain rfl := Option.some.inj h
      rw [asU64_eq_some.mp hv, asU64_eq_some.mp hseq]
      exact .triple v seq (readSnap_eq_some.mp hsnap)
    · cases h
  · intro h
    cases h with
    | object hv hseq hsnap =>
      simp only [Cursor.fromValue, hv, hseq, Option.bind_some, Json.asU64_posInt,
        readSnap_eq_some.mpr hsnap]
      rfl
    | pair v seq => rfl
    | triple v seq hsnap =>
      simp only [Cursor.fromValue, Json.asU64_posInt, readSnap_eq_some.mpr hsnap]
      rfl

theorem cursorJson_toValue (c : Cursor) : CursorJson c.toValue c :=
  Cursor.fromValue_eq_some.mp (Cursor.fromValue_toValue c)

namespace Inventory

variable {X : Externs} {options : InventoryOptions} {p : Json}

/-! ## Starting from a position -/

theorem new_refuses (h : ∀ c, ¬ CursorJson p c) :
    new X options (some p) = .error (.invalidSpec (options.store ++
      ": the stored position is not one an inventory wrote: " ++ X.cursorError p)) := by
  have hnone : Cursor.fromValue p = none := by
    refine Option.eq_none_iff_forall_ne_some.mpr fun c hc => ?_
    exact h c (Cursor.fromValue_eq_some.mp hc)
  rw [new, hnone]

/-- A cursor starts from its snapshot, or from the next listing with a gap. -/
theorem new_of_cursor {c : Cursor} (h : CursorJson p c) :
    new X options (some p) = .ok (match c.snap with
      | some snap => fresh options snap .known false
      | none => fresh options ∅ .silent true) := by
  rw [new, Cursor.fromValue_eq_some.mpr h]
  obtain ⟨v, seq, snap⟩ := c
  cases snap <;> rfl

theorem gap_of_emitAll {now : Nanos} {take index : ℕ} {cs : List Change}
    {extras : BTreeMap String Fields} {inv : Inventory} {m : Emitted}
    (hm : m ∈ (emitAll X now take index cs extras inv).2) : m.event.gap = false := by
  induction cs generalizing index extras inv with
  | nil => cases hm
  | cons c cs ih =>
    rw [emitAll_cons] at hm
    rcases List.mem_cons.mp hm with rfl | hm
    · dsimp only
      rw [addDetails_eq]
      rfl
    · exact ih hm

theorem gap_of_emitted {now : Nanos} {listing : List ObjectEntry} {inv : Inventory} {m : Emitted}
    (hm : m ∈ (inv.pollCore X now listing).2) : m.event.gap = false := by
  have hb := baseline_of_emitted hm
  rw [pollCore, if_neg hb] at hm
  exact gap_of_emitAll hm

theorem gap_of_poll (inv : Inventory) (now : Nanos) (listing : List ObjectEntry) :
    (∃ e ∈ (inv.poll X now listing).2, e.gap = true) ↔ inv.gap = true := by
  constructor
  · rintro ⟨e, he, hgap⟩
    rcases List.mem_append.mp he with he | he
    · by_contra hno
      rw [if_neg hno] at he
      cases he
    · obtain ⟨m, hm, rfl⟩ := List.mem_map.mp he
      rw [gap_of_emitted hm] at hgap
      cases hgap
  · intro hgap
    refine ⟨{ gap := true }, List.mem_append_left _ ?_, rfl⟩
    rw [if_pos hgap]
    exact List.mem_cons_self

theorem written_of_poll {inv : Inventory} {now : Nanos} {listing : List ObjectEntry} {e : WatchEvent}
    {q : Json} (he : e ∈ (inv.poll X now listing).2) (hq : e.upstreamCursor = some q) :
    Written q := by
  rcases List.mem_append.mp he with he | he
  · split_ifs at he
    · obtain rfl := List.mem_singleton.mp he
      cases hq
    · cases he
  · obtain ⟨m, hm, rfl⟩ := List.mem_map.mp he
    have hpos := ((pollCore_compare X now listing (baseline_of_emitted hm)).2.2.2 m hm).2.2.2.1
    exact ⟨_, rfl, Option.some.inj (hq.symm.trans hpos)⟩

/-- **Which positions a start accepts.** What is no cursor is refused as not written by an inventory. A
cursor of this version is accepted; the first poll then reports a gap exactly when it has no snapshot,
and otherwise the confirmed listing is the snapshot. Every position on an event is one an inventory of
this version writes, and is accepted. -/
theorem resume_accepts (X : Externs) (options : InventoryOptions) (p : Json) :
    ((∀ c, ¬ CursorJson p c) → new X options (some p) = .error (.invalidSpec (options.store ++
      ": the stored position is not one an inventory wrote: " ++ X.cursorError p))) ∧
    (∀ c, CursorJson p c → c.v = cursorVersion → ∃ inv, new X options (some p) = .ok inv ∧
      (∀ now listing, (∃ e ∈ (inv.poll X now listing).2, e.gap = true) ↔ c.snap = none) ∧
      ∀ snap, c.snap = some snap → inv.confirmed = snap) ∧
    ∀ (inv : Inventory) (now : Nanos) (listing : List ObjectEntry),
      ∀ e ∈ (inv.poll X now listing).2, ∀ q, e.upstreamCursor = some q →
        Written q ∧ ∃ inv, new X options (some q) = .ok inv := by
  refine ⟨new_refuses, fun c hc _ => ⟨_, new_of_cursor hc, fun now listing => ?_, fun snap hsnap => ?_⟩,
    fun inv now listing e he q hq => ?_⟩
  · rw [gap_of_poll]
    cases hs : c.snap <;> simp [fresh]
  · rw [hsnap]
    rfl
  · have hwritten := written_of_poll he hq
    obtain ⟨c, -, rfl⟩ := hwritten
    exact ⟨written_of_poll he hq, _, new_of_cursor (cursorJson_toValue c)⟩

/-- A position of another version. -/
def otherVersion : Json := Cursor.toValue ⟨cursorVersion + 1, 0, some ∅⟩

/-- A position whose snapshot is null. -/
def nullSnap : Json :=
  .obj [("seq", .num (.posInt 0)), ("snap", .null), ("v", .num (.posInt cursorVersion))]

/-- A position written as the array of its fields. -/
def arrayPosition : Json := .arr [.num (.posInt cursorVersion), .num (.posInt 0)]

/-- A position with a field no cursor has. -/
def extraField : Json :=
  .obj [("queue", .str "jobs"), ("seq", .num (.posInt 0)), ("v", .num (.posInt cursorVersion))]

/-- A start accepts the position, and no inventory of this version writes it. -/
def AcceptedUnwritten (p : Json) : Prop :=
  (∃ inv, new plainExterns plainOptions (some p) = .ok inv) ∧ ¬ Written p

/-- **Positions no inventory of this version wrote are accepted**: one of another version, one whose
snapshot is null, one that is an array, and one with a field no cursor has. -/
theorem unwritten_positions_accepted :
    AcceptedUnwritten otherVersion ∧ AcceptedUnwritten nullSnap ∧
      AcceptedUnwritten arrayPosition ∧ AcceptedUnwritten extraField := by
  refine ⟨⟨⟨_, new_of_cursor (cursorJson_toValue _)⟩, ?_⟩,
    ⟨⟨_, new_of_cursor (c := ⟨cursorVersion, 0, none⟩) (.object rfl rfl .null)⟩, ?_⟩,
    ⟨⟨_, new_of_cursor (.pair cursorVersion 0)⟩, ?_⟩,
    ⟨⟨_, new_of_cursor (c := ⟨cursorVersion, 0, none⟩) (.object rfl rfl .absent)⟩, ?_⟩⟩
  · rintro ⟨c, hv, hp⟩
    have hread := congrArg Cursor.fromValue hp
    rw [otherVersion, Cursor.fromValue_toValue, Cursor.fromValue_toValue] at hread
    have hsame := congrArg Cursor.v (Option.some.inj hread)
    rw [hv] at hsame
    exact absurd hsame (by decide)
  · rintro ⟨⟨v, seq, snap⟩, -, hp⟩
    cases snap <;> simp [nullSnap, Cursor.toValue] at hp
  · rintro ⟨⟨v, seq, snap⟩, -, hp⟩
    cases snap <;> simp [arrayPosition, Cursor.toValue] at hp
  · rintro ⟨⟨v, seq, snap⟩, -, hp⟩
    cases snap <;> simp [extraField, Cursor.toValue] at hp

end Inventory

end McpgSdk
