import McpgSdk.Inventory.History

/-!
# What a deletion names

A deletion is reported with the last details seen of its object. They are set by every listing that has
the key, and dropped when a deletion of the key is acknowledged. Such an acknowledgement may come after
the key was listed again: the details of the new object are dropped with those of the old one.

* `getElem?_remember`: what a listing leaves of the details of a key;
* `deleted_data`: the event of a deletion is made of the entry of its change alone;
* `DeletionAcked`: a deletion of the key is acknowledged along a run;
* `seen_run`: the details of a key along a run that does not list it;
* **`deletion_names_iff`**: a deletion names what was listed last exactly when no deletion of the key
  was acknowledged since, or nothing was listed of it but its key;
* `late_ack_drops_details`: an acknowledgement after the key was listed again.
-/

set_option autoImplicit false

namespace McpgSdk

open OrdMap

namespace Inventory

/-! ## Details and listings -/

theorem getElem?_remember (listing : List ObjectEntry) (inv : Inventory) (k : String) :
    (remember (currentOf listing) inv).seen[k]? =
      (currentOf listing)[k]?.or inv.seen[k]? := by
  have hkeys : (currentOf listing).toList.map (fun ke => (ke.2.key, some ke.2)) =
      (currentOf listing).toList.map fun ke => (ke.1, some ke.2) := by
    refine List.map_congr_left fun ke hke => ?_
    rw [key_of_currentOf (Std.ExtTreeMap.mem_toList_iff_getElem?_eq_some.mp hke)]
  have hpatch : (remember (currentOf listing) inv).seen =
      patchAll inv.seen ((currentOf listing).toList.map fun ke => (ke.1, some ke.2)) := by
    rw [← hkeys, patchAll, List.foldl_map]
    rfl
  have hfst : ((currentOf listing).toList.map fun ke => (ke.1, some ke.2)).map Prod.fst =
      (currentOf listing).keys := by
    rw [List.map_map, ← Std.ExtTreeMap.map_fst_toList_eq_keys]
    rfl
  have hlook := congrFun (look_patchAll inv.seen
    ((currentOf listing).toList.map fun ke => (ke.1, some ke.2))) k
  rw [← hpatch] at hlook
  refine hlook.trans ?_
  cases hk : (currentOf listing)[k]? with
  | none =>
    refine applyAll_of_not_mem ?_ _
    rw [hfst, Std.ExtTreeMap.mem_keys, Std.ExtTreeMap.mem_iff_isSome_getElem?, hk]
    exact Bool.false_ne_true
  | some e =>
    refine applyAll_of_mem ?_ ?_ _
    · rw [hfst]
      exact (currentOf listing).nodup_keys
    · exact List.mem_map_of_mem (f := fun ke : String × ObjectEntry => (ke.1, some ke.2))
        (Std.ExtTreeMap.mem_toList_iff_getElem?_eq_some.mpr hk)

theorem seen_pollCore (X : Externs) (now : Nanos) (listing : List ObjectEntry) {inv : Inventory}
    (hb : inv.baseline ≠ .silent) (hq : inv.quietRemovals = false) (k : String) :
    (inv.pollCore X now listing).1.seen[k]? = (currentOf listing)[k]?.or inv.seen[k]? := by
  have hkept : forget (currentOf listing) (inv.live now) = inv.live now :=
    if_neg (by rw [show (inv.live now).quietRemovals = false from hq]; exact Bool.false_ne_true)
  have hstate := (pollCore_compare X now listing hb).2.2.1
  rw [hkept] at hstate
  rw [hstate]
  exact getElem?_remember listing (inv.live now) k

theorem seen_acknowledged (inv : Inventory) (position : Json) (k : String) :
    (inv.acknowledged position).seen[k]? =
      if ∃ p, inv.acknowledges position = some p ∧ p.key = k ∧ p.digest = none then none
      else inv.seen[k]? := by
  cases hp : inv.acknowledges position with
  | none =>
    rw [acknowledged_of_none hp, if_neg]
    rintro ⟨p, hp', -⟩
    cases hp'
  | some p =>
    rw [acknowledged_of_some hp]
    by_cases hd : p.digest = none
    · rw [show (if p.digest = none then inv.seen.erase p.key else inv.seen) = inv.seen.erase p.key from
        if_pos hd, getElem?_erase_ite]
      refine if_congr ⟨fun hk => ⟨p, rfl, hk.symm, hd⟩, ?_⟩ rfl rfl
      rintro ⟨p', hp', hk, -⟩
      obtain rfl := Option.some.inj hp'
      exact hk.symm
    · rw [show (if p.digest = none then inv.seen.erase p.key else inv.seen) = inv.seen from if_neg hd,
        if_neg]
      rintro ⟨p', hp', -, hd'⟩
      obtain rfl := Option.some.inj hp'
      exact hd hd'

/-! ## The event of a deletion -/

theorem emitAll_data {X : Externs} {now : Nanos} {take index : ℕ} {cs : List Change}
    {extras : BTreeMap String Fields} {inv : Inventory} {e : Emitted}
    (he : e ∈ (emitAll X now take index cs extras inv).2)
    (hextra : extras[e.change.entry.key]? = none) :
    e.event.data = some (.obj (inv.eventData X e.change)) := by
  induction cs generalizing index extras inv with
  | nil => cases he
  | cons c cs ih =>
    rw [emitAll_cons] at he
    rcases List.mem_cons.mp he with rfl | he
    · dsimp only at hextra ⊢
      rw [hextra, pushed_fst]
      rfl
    · have herased : (extras.erase c.entry.key)[e.change.entry.key]? = none := by
        rw [getElem?_erase_ite, hextra, ite_self]
      have hdata := ih he herased
      rw [pushed_fst] at hdata
      exact hdata

theorem details_alive {inv : Inventory} {cs : List Change} {k : String} {extra : Fields}
    (h : (inv.details cs).2[k]? = some extra) : ∃ c ∈ cs, c.op ≠ .deleted ∧ c.entry.key = k := by
  unfold details at h
  cases hd : inv.describe with
  | none =>
    rw [hd] at h
    simp at h
  | some d =>
    rw [hd] at h
    dsimp only at h
    split_ifs at h with hempty
    · simp at h
    · obtain ⟨⟨entry, reply⟩, hmem, heq⟩ := List.mem_filterMap.mp (mem_of_getElem?_ofList h)
      obtain ⟨extra', -, hpair⟩ := Option.map_eq_some_iff.mp heq
      obtain ⟨c, hc, rfl⟩ := List.mem_map.mp (List.of_mem_zip hmem).1
      obtain ⟨hc, halive⟩ := List.mem_filter.mp hc
      exact ⟨c, hc, by simpa using halive, congrArg Prod.fst hpair⟩

/-- A deletion is given no details: its key would be that of a change of something still there. -/
theorem details_of_deleted {inv : Inventory} {cs : List Change}
    (hn : (cs.map fun c => c.entry.key).Nodup) {c : Change} (hc : c ∈ cs) (hop : c.op = .deleted) :
    (inv.details cs).2[c.entry.key]? = none := by
  refine Option.eq_none_iff_forall_ne_some.mpr fun extra hextra => ?_
  obtain ⟨c', hc', halive, hkey⟩ := details_alive hextra
  rw [List.inj_on_of_nodup_map hn hc' hc hkey] at halive
  exact halive hop

/-- **The event of a deletion** has the data of the entry its change carries. -/
theorem deleted_data {X : Externs} {inv : Inventory} (hw : inv.WF)
    {now : Nanos} {listing : List ObjectEntry} {e : Emitted}
    (he : e ∈ (inv.pollCore X now listing).2) (hop : e.change.op = .deleted) :
    e.event.data = some (.obj (inv.eventData X e.change)) := by
  have hmem := taken_of_emitted he
  have hnodup := nodup_taken X now listing hw
  rw [pollCore, if_neg (baseline_of_emitted he)] at he
  have hdata := emitAll_data he (details_of_deleted hnodup hmem hop)
  rw [details_fst, forget_baseline, forget_eq] at hdata
  exact hdata

theorem deleted_entry {X : Externs} {inv : Inventory} (hw : inv.WF)
    {now : Nanos} {listing : List ObjectEntry} {e : Emitted}
    (he : e ∈ (inv.pollCore X now listing).2) (hop : e.change.op = .deleted) :
    inv.quietRemovals = false ∧
      e.change.entry = inv.seen[e.change.entry.key]?.getD { key := e.change.entry.key } := by
  rcases List.mem_append.mp (change_of_emitted he) with hlisted | hgone
  · obtain ⟨ke, -, hc⟩ := List.mem_filterMap.mp hlisted
    obtain ⟨-, -, heq⟩ := listedChange_eq_some.mp hc
    rw [heq] at hop
    cases hconf : (inv.live now).confirmed[ke.1]? <;> simp [opOf, hconf] at hop
  · by_cases hq : inv.quietRemovals = true
    · rw [if_pos (show (inv.live now).quietRemovals = true from hq)] at hgone
      cases hgone
    · rw [if_neg (show ¬ (inv.live now).quietRemovals = true from hq)] at hgone
      obtain ⟨k, -, hk⟩ := List.mem_map.mp hgone
      have hkey : e.change.entry.key = k := by
        rw [← hk]
        exact deletion_key (hw.live_seen now) k
      rw [hkey, ← hk]
      exact ⟨Bool.not_eq_true _ ▸ hq, rfl⟩

end Inventory

/-! ## Details along a run -/

/-- The step is a poll whose listing has the key. -/
def Act.Lists (k : String) : Act → Prop
  | .poll _ listing => (Inventory.currentOf listing)[k]? ≠ none
  | .ack _ => False

namespace History

/-- The step is the acknowledgement of a deletion of the key that is in flight. -/
def AcksDeletion (k : String) (h : History) : Act → Prop
  | .poll _ _ => False
  | .ack position =>
    ∃ p, h.inv.acknowledges position = some p ∧ p.key = k ∧ p.digest = none

/-- A deletion of the key is acknowledged along a run. -/
def DeletionAcked (X : Externs) (k : String) (h : History) (acts : List Act) : Prop :=
  ∃ pre a post, acts = pre ++ a :: post ∧ (h.run X pre).AcksDeletion k a

section

variable {X : Externs} {k : String} {h : History}

theorem not_deletionAcked_nil : ¬ DeletionAcked X k h [] := by
  rintro ⟨pre, a, post, hsplit, -⟩
  exact absurd hsplit nil_ne_split

theorem deletionAcked_cons {a : Act} {acts : List Act} :
    DeletionAcked X k h (a :: acts) ↔ h.AcksDeletion k a ∨ DeletionAcked X k (h.step X a) acts := by
  constructor
  · rintro ⟨pre, b, post, hsplit, hb⟩
    cases pre with
    | nil =>
      obtain ⟨rfl, rfl⟩ := List.cons.inj hsplit
      exact .inl hb
    | cons a' pre =>
      obtain ⟨rfl, rfl⟩ := List.cons.inj hsplit
      exact .inr ⟨pre, b, post, rfl, hb⟩
  · rintro (ha | ⟨pre, b, post, rfl, hb⟩)
    · exact ⟨[], a, acts, rfl, ha⟩
    · exact ⟨a :: pre, b, post, rfl, hb⟩

theorem baseline_step (hb : h.inv.baseline ≠ .silent) (a : Act) :
    (h.step X a).inv.baseline ≠ .silent := by
  cases a with
  | poll now listing =>
    have hstate := (Inventory.pollCore_compare X now listing hb).2.2.1
    show (h.inv.pollCore X now listing).1.baseline ≠ .silent
    rw [hstate]
    exact nofun
  | ack position =>
    show (h.inv.acknowledged position).baseline ≠ .silent
    rwa [Inventory.acknowledged_baseline]

/-- A step that does not list the key leaves its details, or acknowledges a deletion of it. -/
theorem seen_step (hb : h.inv.baseline ≠ .silent) (hq : h.inv.quietRemovals = false) {a : Act}
    (ha : ¬ a.Lists k) :
    (h.AcksDeletion k a ∧ (h.step X a).inv.seen[k]? = none) ∨
      ¬ h.AcksDeletion k a ∧ (h.step X a).inv.seen[k]? = h.inv.seen[k]? := by
  cases a with
  | poll now listing =>
    have hnone : (Inventory.currentOf listing)[k]? = none := not_not.mp ha
    have hseen := Inventory.seen_pollCore X now listing hb hq k
    rw [hnone, Option.none_or] at hseen
    exact .inr ⟨id, hseen⟩
  | ack position =>
    have hseen := Inventory.seen_acknowledged h.inv position k
    by_cases hacks : h.AcksDeletion k (.ack position)
    · exact .inl ⟨hacks, hseen.trans (if_pos hacks)⟩
    · exact .inr ⟨hacks, hseen.trans (if_neg hacks)⟩

/-- **The details of a key along a run that does not list it**: they are dropped when a deletion of it
is acknowledged, and kept otherwise. -/
theorem seen_run (hb : h.inv.baseline ≠ .silent) (hq : h.inv.quietRemovals = false) {acts : List Act}
    (hacts : ∀ a ∈ acts, ¬ a.Lists k) :
    (DeletionAcked X k h acts → (h.run X acts).inv.seen[k]? = none) ∧
      (¬ DeletionAcked X k h acts → (h.run X acts).inv.seen[k]? = h.inv.seen[k]?) := by
  induction acts generalizing h with
  | nil => exact ⟨fun hacked => absurd hacked not_deletionAcked_nil, fun _ => rfl⟩
  | cons a acts ih =>
    have hrest : ∀ b ∈ acts, ¬ b.Lists k := fun b hbm => hacts b (List.mem_cons_of_mem _ hbm)
    obtain ⟨hdropped, hkept⟩ := ih (baseline_step hb a) ((quiet_step X h a).trans hq) hrest
    have hrun : h.run X (a :: acts) = (h.step X a).run X acts := rfl
    rw [deletionAcked_cons, hrun]
    rcases seen_step (X := X) hb hq (hacts a List.mem_cons_self) with ⟨hacks, hseen⟩ | ⟨hacks, hseen⟩
    · -- dropped here, and dropped from then on
      have hnone : ((h.step X a).run X acts).inv.seen[k]? = none := by
        by_cases hlater : DeletionAcked X k (h.step X a) acts
        · exact hdropped hlater
        · exact (hkept hlater).trans hseen
      exact ⟨fun _ => hnone, fun hnever => absurd (.inl hacks) hnever⟩
    · refine ⟨fun hacked => hdropped (hacked.resolve_left hacks), fun hnever => ?_⟩
      exact (hkept fun hlater => hnever (.inr hlater)).trans hseen

theorem baseline_poll (now : Nanos) (listing : List ObjectEntry) :
    (h.step X (.poll now listing)).inv.baseline ≠ .silent := by
  by_cases hb : h.inv.baseline = .silent
  · have hstep : (h.step X (.poll now listing)).inv = _ :=
      congrArg Prod.fst (Inventory.pollCore_silent X now listing hb)
    rw [hstep]
    exact nofun
  · exact baseline_step hb _

theorem seen_poll {now : Nanos} {listing : List ObjectEntry} {e : ObjectEntry}
    (hq : h.inv.quietRemovals = false) (he : (Inventory.currentOf listing)[k]? = some e) :
    (h.step X (.poll now listing)).inv.seen[k]? = some e := by
  by_cases hb : h.inv.baseline = .silent
  · have hstep : (h.step X (.poll now listing)).inv = _ :=
      congrArg Prod.fst (Inventory.pollCore_silent X now listing hb)
    rw [hstep]
    exact he
  · have hseen := Inventory.seen_pollCore X now listing hb hq k
    rw [he, Option.some_or] at hseen
    exact hseen

theorem quiet_run (X : Externs) (h : History) (acts : List Act) :
    (h.run X acts).inv.quietRemovals = h.inv.quietRemovals := by
  induction acts generalizing h with
  | nil => rfl
  | cons a acts ih => exact (ih (h.step X a)).trans (quiet_step X h a)

end

/-- **When a deletion names what was there.** Take any run, a listing `l` of it that has the key, and no
later one that does. A deletion of the key that the next poll reports has the entry that `l` had if and
only if no deletion of the key was acknowledged since `l`, or that entry was nothing but its key. Its
event has the data of the entry it has. -/
theorem deletion_names_iff {X : Externs} {inv₀ : Inventory} (h₀ : Inventory.Started X inv₀)
    (pre since : List Act) (t now : Nanos) (l listing : List ObjectEntry) {k : String}
    {last : ObjectEntry} (hlast : (Inventory.currentOf l)[k]? = some last)
    (hsince : ∀ a ∈ since, ¬ a.Lists k) {m : Emitted}
    (hm : m ∈ (((start inv₀).run X (pre ++ Act.poll t l :: since)).inv.pollCore X now listing).2)
    (hop : m.change.op = .deleted) (hkey : m.change.entry.key = k) :
    (m.change.entry = last ↔
      ¬ DeletionAcked X k ((start inv₀).run X (pre ++ [Act.poll t l])) since ∨ last = { key := k }) ∧
    m.event.data = some (.obj (((start inv₀).run X (pre ++ Act.poll t l :: since)).inv.eventData X
      m.change)) := by
  have hrun : (start inv₀).run X (pre ++ Act.poll t l :: since) =
      ((start inv₀).run X (pre ++ [Act.poll t l])).run X since := by
    rw [List.append_cons, run, run, run, List.foldl_append]
  have hlisted := run_concat X (start inv₀) pre (.poll t l)
  rw [hrun] at hm ⊢
  rw [hlisted] at hm ⊢
  generalize hh : (start inv₀).run X pre = h at hm ⊢
  have hpolled := baseline_poll (X := X) (h := h) t l
  have hw : ((h.step X (.poll t l)).run X since).inv.WF := by
    rw [← hh, ← hlisted, ← hrun]
    exact (inv_of_reach h₀ (reach_run X _ _)).wf
  obtain ⟨hq, hentry⟩ := Inventory.deleted_entry hw hm hop
  rw [quiet_run] at hq
  have hq' : h.inv.quietRemovals = false := (quiet_step X h _).symm.trans hq
  have hdata := Inventory.deleted_data hw hm hop
  rw [hkey] at hentry
  refine ⟨?_, hdata⟩
  obtain ⟨hdropped, hkept⟩ := seen_run (X := X) hpolled hq hsince
  by_cases hacked : DeletionAcked X k (h.step X (.poll t l)) since
  · rw [hdropped hacked] at hentry
    rw [hentry]
    exact ⟨fun heq => .inr heq.symm, fun hor => (hor.resolve_left (not_not.mpr hacked)).symm⟩
  · rw [hkept hacked, seen_poll hq' hlast] at hentry
    exact iff_of_true hentry (.inl hacked)

/-- An object of some size. -/
def sized (n : ℕ) : ObjectEntry := { key := "a", size := some n }

theorem deletion_names_iff_sized :
    ∃ m ∈ (((start Inventory.plainInventory).run plainExterns [.poll 0 [sized 1]]).inv.pollCore
        plainExterns 1 []).2,
      m.change.op = .deleted ∧ m.change.entry = sized 1 := by
  have hexists : ∃ m ∈ (((start Inventory.plainInventory).run plainExterns
      [.poll 0 [sized 1]]).inv.pollCore plainExterns 1 []).2,
      m.change.op = .deleted ∧ m.change.entry.key = "a" := by decide +kernel
  have hlast : (Inventory.currentOf [sized 1])["a"]? = some (sized 1) := by decide +kernel
  obtain ⟨m, hm, hop, hkey⟩ := hexists
  have hnames := deletion_names_iff Inventory.plainInventory_started [] [] 0 1 [sized 1] [] hlast
    (List.forall_mem_nil _) hm hop hkey
  exact ⟨m, hm, hop, hnames.1.mpr (.inl not_deletionAcked_nil)⟩

/-- The object is listed and leaves. -/
def leaves : List Act := [.poll 0 [sized 1], .poll 1 []]

/-- The host acknowledges that it left, and then that it came back. -/
def acksBoth : List Act := [.ack (Cursor.toValue ⟨1, 0, none⟩), .ack (Cursor.toValue ⟨1, 1, none⟩)]

/-- **An acknowledgement after the key was listed again drops its details**: the object is deleted and
comes back before the host acknowledges the deletion, then its return. When it leaves again, nothing is
said of it but its key. -/
theorem late_ack_drops_details :
    ¬ ∀ (X : Externs) (inv₀ : Inventory), Inventory.Started X inv₀ → ∀ (pre since : List Act)
      (t now : Nanos) (l listing : List ObjectEntry) (k : String) (last : ObjectEntry),
      (Inventory.currentOf l)[k]? = some last → (∀ a ∈ since, ¬ a.Lists k) →
      ∀ m ∈ (((start inv₀).run X (pre ++ Act.poll t l :: since)).inv.pollCore X now listing).2,
        m.change.op = .deleted → m.change.entry.key = k → m.change.entry = last := by
  intro hclaim
  have hexists : ∃ m ∈ (((start Inventory.plainInventory).run plainExterns
      (leaves ++ Act.poll 2 [sized 2] :: acksBoth)).inv.pollCore plainExterns 3 []).2,
      m.change.op = .deleted ∧ m.change.entry.key = "a" ∧ m.change.entry ≠ sized 2 := by
    decide +kernel
  have hlast : (Inventory.currentOf [sized 2])["a"]? = some (sized 2) := by decide +kernel
  have hacks : ∀ a ∈ acksBoth, ¬ a.Lists "a" := by
    intro a ha
    rcases List.mem_cons.mp ha with rfl | ha
    · exact id
    · obtain rfl := List.mem_singleton.mp ha
      exact id
  obtain ⟨m, hm, hop, hkey, hne⟩ := hexists
  exact hne (hclaim _ _ Inventory.plainInventory_started _ _ _ _ _ _ _ _ hlast hacks m hm hop hkey)

end History

end McpgSdk
