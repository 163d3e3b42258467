import McpgSdk.Inventory.Details

/-!
# How much is remembered

An inventory remembers the details of what it lists, for the deletions to come. A key is dropped from
them when its deletion is acknowledged or quietly forgotten, and both need the key to be confirmed: an
object that comes and goes before it is confirmed is remembered for good.

* `Accounted`: every remembered key is confirmed, in flight, or was listed last, with
  **`Accounted.size_le`**: so few are remembered;
* `LosesSight`: the step after which an unconfirmed key is none of the three;
* `poll_unlisted`, `acknowledged_other`, `acknowledged_own`: what a step does at one key;
* `accounted_poll`, `accounted_ack`: one step;
* **`accounted_run_iff`**: the keys are accounted for all along a run exactly when no step of it loses
  sight of an unconfirmed key;
* `expired_creation_leaks`: a creation that times out after its object left.
-/

set_option autoImplicit false

namespace McpgSdk

open OrdMap

namespace Inventory

/-- The key is in the listing. -/
def InListing (listing : List ObjectEntry) (k : String) : Prop := ∃ e ∈ listing, e.key = k

instance (listing : List ObjectEntry) (k : String) : Decidable (InListing listing k) :=
  inferInstanceAs (Decidable (∃ e ∈ listing, e.key = k))

/-- Every remembered key is confirmed, has a change in flight, or was listed last. -/
def Accounted (inv : Inventory) (listed : List ObjectEntry) : Prop :=
  ∀ k ∈ inv.seen.keys, k ∈ inv.confirmed.keys ∨ (∃ p ∈ inv.pending, p.key = k) ∨ InListing listed k

/-- No more is remembered than is confirmed, in flight and listed. -/
def Bounded (inv : Inventory) (listed : List ObjectEntry) : Prop :=
  inv.seen.size ≤ inv.confirmed.size + inv.pending.length + listed.length

/-- The step leaves the key neither in flight nor listed: a poll lists it no more and its changes have
timed out, or an acknowledgement of another key passes over its changes and it was not listed last. -/
def LosesSight (inv : Inventory) (listed : List ObjectEntry) (k : String) : Act → Prop
  | .poll now listing =>
    ¬ InListing listing k ∧ ∀ p ∈ inv.pending, p.key = k → inv.options.ackTimeout ≤ now - p.atTime
  | .ack position =>
    ∃ p ∈ inv.acknowledges position,
      p.key ≠ k ∧ ¬ InListing listed k ∧ ∀ q ∈ inv.pending, q.key = k → q.seq ≤ p.seq

instance (inv : Inventory) (listed : List ObjectEntry) (k : String) :
    (a : Act) → Decidable (inv.LosesSight listed k a)
  | .poll now listing =>
    inferInstanceAs (Decidable (¬ InListing listing k ∧
      ∀ p ∈ inv.pending, p.key = k → inv.options.ackTimeout ≤ now - p.atTime))
  | .ack position =>
    inferInstanceAs (Decidable (∃ p ∈ inv.acknowledges position,
      p.key ≠ k ∧ ¬ InListing listed k ∧ ∀ q ∈ inv.pending, q.key = k → q.seq ≤ p.seq))

/-- No remembered key is lost sight of before it is confirmed. -/
def KeepsSight (inv : Inventory) (listed : List ObjectEntry) (a : Act) : Prop :=
  ∀ k ∈ inv.seen.keys, k ∉ inv.confirmed.keys → ¬ inv.LosesSight listed k a

instance (inv : Inventory) (listed : List ObjectEntry) (a : Act) :
    Decidable (inv.KeepsSight listed a) :=
  inferInstanceAs (Decidable (∀ k ∈ inv.seen.keys, k ∉ inv.confirmed.keys →
    ¬ inv.LosesSight listed k a))

/-! ## The bound -/

/-- **What is accounted for is bounded.** -/
theorem Accounted.size_le {inv : Inventory} {listed : List ObjectEntry}
    (h : inv.Accounted listed) : inv.Bounded listed := by
  have hsub : inv.seen.keys ⊆
      inv.confirmed.keys ++ inv.pending.map Pending.key ++ listed.map ObjectEntry.key := by
    intro k hk
    rw [List.mem_append, List.mem_append, List.mem_map, List.mem_map, or_assoc]
    exact h k hk
  have hlen := (inv.seen.nodup_keys.subperm hsub).length_le
  rwa [List.length_append, List.length_append, List.length_map, List.length_map,
    Std.ExtTreeMap.length_keys, Std.ExtTreeMap.length_keys] at hlen

/-! ## Membership -/

theorem mem_keys_iff {ν : Type} {m : BTreeMap String ν} {k : String} :
    k ∈ m.keys ↔ m[k]? ≠ none := by
  rw [Std.ExtTreeMap.mem_keys, Std.ExtTreeMap.mem_iff_isSome_getElem?, Option.isSome_iff_ne_none]

theorem inListing_iff {listing : List ObjectEntry} {k : String} :
    InListing listing k ↔ (currentOf listing)[k]? ≠ none := by
  rw [← mem_keys_iff, Std.ExtTreeMap.mem_keys, currentOf, Std.ExtTreeMap.mem_ofList,
    List.contains_iff_mem, List.map_map, List.mem_map]
  rfl

theorem mem_live_iff {now : Nanos} {inv : Inventory} {p : Pending} :
    p ∈ (inv.live now).pending ↔
      p ∈ inv.pending ∧ ¬ inv.options.ackTimeout ≤ now - p.atTime := by
  rw [not_le]
  exact List.mem_filter.trans (and_congr_right' decide_eq_true_iff)

theorem Started.seen {X : Externs} {inv : Inventory} (h : Started X inv) : inv.seen = ∅ := by
  obtain ⟨options, resume, inv₀, hook, quiet, hnew, rfl⟩ := h
  obtain ⟨confirmed, baseline, gap, rfl, -, -⟩ := new_eq_ok hnew
  rfl

/-! ## One step -/

/-- Forgetting what left the listing forgets it everywhere: of the other keys nothing changes. -/
theorem forget_split (current : BTreeMap String ObjectEntry) (inv : Inventory) (k : String) :
    (inv.confirmed[k]? ≠ none ∧ (forget current inv).confirmed[k]? = none ∧
        (forget current inv).seen[k]? = none) ∨
      ((forget current inv).confirmed[k]? = inv.confirmed[k]? ∧
        (forget current inv).seen[k]? = inv.seen[k]?) := by
  unfold forget
  split_ifs
  · dsimp only
    rw [getElem?_foldl_erase, getElem?_foldl_erase]
    by_cases hk : k ∈ inv.gone current
    · rw [if_pos hk, if_pos hk]
      exact .inl ⟨(mem_gone.mp hk).1, rfl, rfl⟩
    · rw [if_neg hk, if_neg hk]
      exact .inr ⟨rfl, rfl⟩
  · exact .inr ⟨rfl, rfl⟩

theorem confirmed_of_unlisted {X : Externs} {inv : Inventory} (hw : inv.WF)
    {now : Nanos} {listing : List ObjectEntry} {e : Emitted}
    (he : e ∈ (inv.pollCore X now listing).2) (hk : ¬ InListing listing e.change.entry.key) :
    inv.confirmed[e.change.entry.key]? ≠ none := by
  have hspec := (spec_of_emitted hw he).2.1
  rwa [getElem?_digestsOf, not_not.mp (mt inListing_iff.mpr hk)] at hspec

/-- Of a key that is not listed, a poll forgets all that is remembered, or changes nothing. -/
theorem poll_unlisted {X : Externs} {inv : Inventory} (hb : inv.baseline ≠ .silent) (now : Nanos)
    {listing : List ObjectEntry} {k : String} (hk : ¬ InListing listing k) :
    (inv.confirmed[k]? ≠ none ∧ (inv.pollCore X now listing).1.seen[k]? = none) ∨
      ((inv.pollCore X now listing).1.confirmed[k]? = inv.confirmed[k]? ∧
        (inv.pollCore X now listing).1.seen[k]? = inv.seen[k]?) := by
  have hst := (pollCore_compare X now listing hb).2.2.1
  have hseen : (inv.pollCore X now listing).1.seen[k]? =
      (forget (currentOf listing) (inv.live now)).seen[k]? := by
    rw [hst]
    refine (getElem?_remember listing _ k).trans ?_
    rw [not_not.mp (mt inListing_iff.mpr hk), Option.none_or]
  have hconf : (inv.pollCore X now listing).1.confirmed =
      (forget (currentOf listing) (inv.live now)).confirmed := by
    rw [hst]
  rw [hseen, hconf]
  rcases forget_split (currentOf listing) (inv.live now) k with ⟨hc, -, hs⟩ | hsame
  · exact .inl ⟨hc, hs⟩
  · exact .inr hsame

/-- **A poll keeps the remembered keys accounted for** exactly when it loses sight of none that is
unconfirmed. -/
theorem accounted_poll {X : Externs} {inv : Inventory} (hw : inv.WF)
    (hs : inv.baseline = .silent → inv.seen = ∅) (now : Nanos) (listed listing : List ObjectEntry) :
    (inv.pollCore X now listing).1.Accounted listing ↔ inv.KeepsSight listed (.poll now listing) := by
  by_cases hb : inv.baseline = .silent
  · rw [pollCore_silent X now listing hb]
    refine iff_of_true (fun k hk => ?_) fun k hk => ?_
    · exact .inr (.inr (inListing_iff.mpr (mem_keys_iff.mp hk)))
    · rw [hs hb] at hk
      simp at hk
  constructor
  · rintro hacc k hk hun ⟨hleft, hexp⟩
    rw [mem_keys_iff] at hk hun
    rcases poll_unlisted (X := X) hb now hleft with ⟨hc, -⟩ | ⟨hc, hse⟩
    · exact hun hc
    rcases hacc k (mem_keys_iff.mpr (hse ▸ hk)) with hin | ⟨p, hp, hpk⟩ | hin
    · exact hun (hc ▸ mem_keys_iff.mp hin)
    · rcases mem_pending_pollCore.mp hp with hp | ⟨e, he, rfl⟩
      · exact (mem_live_iff.mp hp).2 (hexp p (mem_live_iff.mp hp).1 hpk)
      · -- a change this poll emits is of a listed or a confirmed key
        change e.change.entry.key = k at hpk
        subst hpk
        exact hun (confirmed_of_unlisted hw he hleft)
    · exact hleft hin
  · intro hkeep k hk
    by_cases hlist : InListing listing k
    · exact .inr (.inr hlist)
    rw [mem_keys_iff] at hk
    rcases poll_unlisted (X := X) hb now hlist with ⟨-, hse⟩ | ⟨hc, hse⟩
    · exact absurd hse hk
    rw [hse, ← mem_keys_iff] at hk
    by_cases hun : k ∈ inv.confirmed.keys
    · left
      rw [mem_keys_iff, hc]
      exact mem_keys_iff.mp hun
    · have hwaits : ¬ ∀ p ∈ inv.pending, p.key = k → inv.options.ackTimeout ≤ now - p.atTime :=
        fun hexp => hkeep k hk hun ⟨hlist, hexp⟩
      simp only [not_forall] at hwaits
      obtain ⟨p, hp, hpk, hlive⟩ := hwaits
      exact .inr (.inl ⟨p, mem_pending_pollCore.mpr (.inl (mem_live_iff.mpr ⟨hp, hlive⟩)), hpk⟩)

theorem acknowledged_other {inv : Inventory} {position : Json} {p : Pending}
    (ha : inv.acknowledges position = some p) {k : String} (hk : p.key ≠ k) :
    (inv.acknowledged position).confirmed[k]? = inv.confirmed[k]? ∧
      (inv.acknowledged position).seen[k]? = inv.seen[k]? := by
  constructor
  · rw [acknowledged_of_some ha, getElem?_patch, if_neg (Ne.symm hk)]
  · rw [seen_acknowledged, if_neg]
    rintro ⟨p', hp', hk', -⟩
    obtain rfl := Option.some.inj (ha.symm.trans hp')
    exact hk hk'

theorem acknowledged_own {inv : Inventory} {position : Json} {p : Pending}
    (ha : inv.acknowledges position = some p)
    (hk : (inv.acknowledged position).seen[p.key]? ≠ none) :
    (inv.acknowledged position).confirmed[p.key]? ≠ none := by
  rw [acknowledged_of_some ha, getElem?_patch, if_pos rfl]
  intro hd
  rw [seen_acknowledged, if_pos ⟨p, ha, rfl, hd⟩] at hk
  exact hk rfl

/-- **An acknowledgement keeps the remembered keys accounted for** exactly when it loses sight of none
that is unconfirmed. -/
theorem accounted_ack {inv : Inventory} {listed : List ObjectEntry} (h : inv.Accounted listed)
    (position : Json) :
    (inv.acknowledged position).Accounted listed ↔ inv.KeepsSight listed (.ack position) := by
  cases ha : inv.acknowledges position with
  | none =>
    rw [acknowledged_of_none ha]
    refine iff_of_true h fun k _ _ hloses => ?_
    obtain ⟨p, hp, -⟩ := hloses
    rw [ha] at hp
    cases hp
  | some p =>
    constructor
    · intro hacc k hk hun hloses
      obtain ⟨p', hp', hne, hleft, hpassed⟩ := hloses
      obtain rfl := Option.some.inj (ha.symm.trans hp')
      obtain ⟨hc, hse⟩ := acknowledged_other ha hne
      rw [mem_keys_iff] at hk hun
      rcases hacc k (mem_keys_iff.mpr (hse ▸ hk)) with hin | ⟨q, hq, hqk⟩ | hin
      · exact hun (hc ▸ mem_keys_iff.mp hin)
      · obtain ⟨hq, hlater⟩ := (mem_pending_acknowledged ha).mp hq
        exact absurd (hpassed q hq hqk) (Nat.not_le.mpr hlater)
      · exact hleft hin
    · intro hkeep k hk
      by_cases hne : p.key = k
      · subst hne
        exact .inl (mem_keys_iff.mpr (acknowledged_own ha (mem_keys_iff.mp hk)))
      obtain ⟨hc, hse⟩ := acknowledged_other ha hne
      rw [mem_keys_iff, hse, ← mem_keys_iff] at hk
      by_cases hun : k ∈ inv.confirmed.keys
      · left
        rw [mem_keys_iff, hc]
        exact mem_keys_iff.mp hun
      by_cases hlist : InListing listed k
      · exact .inr (.inr hlist)
      have hlater : ¬ ∀ q ∈ inv.pending, q.key = k → q.seq ≤ p.seq :=
        fun hpassed => hkeep k hk hun ⟨p, ha, hne, hlist, hpassed⟩
      push Not at hlater
      obtain ⟨q, hq, hqk, hlt⟩ := hlater
      exact .inr (.inl ⟨q, (mem_pending_acknowledged ha).mpr ⟨hq, hlt⟩, hqk⟩)

end Inventory

/-! ## Whole runs -/

/-- The listing a step polls. -/
def Act.listing? : Act → Option (List ObjectEntry)
  | .poll _ listing => some listing
  | .ack _ => none

/-- The listing polled last, nothing before the first poll. -/
def lastListing (acts : List Act) : List ObjectEntry :=
  (acts.filterMap Act.listing?).getLast?.getD []

theorem lastListing_poll (acts : List Act) (now : Nanos) (listing : List ObjectEntry) :
    lastListing (acts ++ [Act.poll now listing]) = listing := by
  simp [lastListing, List.filterMap_append, Act.listing?]

theorem lastListing_ack (acts : List Act) (position : Json) :
    lastListing (acts ++ [Act.ack position]) = lastListing acts := by
  simp [lastListing, List.filterMap_append, Act.listing?]

namespace History

theorem seen_of_silent {X : Externs} {inv₀ : Inventory} (h₀ : Inventory.Started X inv₀)
    (acts : List Act) :
    ((start inv₀).run X acts).inv.baseline = .silent → ((start inv₀).run X acts).inv.seen = ∅ := by
  induction acts using List.reverseRecOn with
  | nil => exact fun _ => h₀.seen
  | append_singleton acts a ih =>
    rw [run_concat]
    intro hb
    cases a with
    | poll now listing => exact absurd hb (baseline_poll now listing)
    | ack position =>
      -- nothing is in flight that could be acknowledged
      change (((start inv₀).run X acts).inv.acknowledged position).baseline = .silent at hb
      rw [Inventory.acknowledged_baseline] at hb
      have hpend := (inv_of_reach h₀ (reach_run X _ acts)).wf.silent hb
      have hnone : ((start inv₀).run X acts).inv.acknowledges position = none := by
        cases hp : ((start inv₀).run X acts).inv.acknowledges position with
        | none => rfl
        | some p =>
          have hmem := (Inventory.acknowledges_eq_some hp).2
          rw [hpend] at hmem
          cases hmem
      change (((start inv₀).run X acts).inv.acknowledged position).seen = ∅
      rw [Inventory.acknowledged_of_none hnone]
      exact ih hb

theorem accounted_step {X : Externs} {inv₀ : Inventory} (h₀ : Inventory.Started X inv₀)
    {acts : List Act} (h : ((start inv₀).run X acts).inv.Accounted (lastListing acts)) (a : Act) :
    ((start inv₀).run X (acts ++ [a])).inv.Accounted (lastListing (acts ++ [a])) ↔
      ((start inv₀).run X acts).inv.KeepsSight (lastListing acts) a := by
  rw [run_concat]
  cases a with
  | poll now listing =>
    rw [lastListing_poll]
    exact Inventory.accounted_poll (inv_of_reach h₀ (reach_run X _ acts)).wf
      (seen_of_silent h₀ acts) now (lastListing acts) listing
  | ack position =>
    rw [lastListing_ack]
    exact Inventory.accounted_ack h position

/-- **When the remembered details do not leak.** Along any run, every remembered key is confirmed, in
flight or was listed last in every state reached, and no more is remembered than these, if and only if
no step of the run loses sight of a remembered key that is not confirmed. -/
theorem accounted_run_iff {X : Externs} {inv₀ : Inventory} (h₀ : Inventory.Started X inv₀)
    (acts : List Act) :
    (∀ pre, pre <+: acts →
      ((start inv₀).run X pre).inv.Accounted (lastListing pre) ∧
        ((start inv₀).run X pre).inv.Bounded (lastListing pre)) ↔
    ∀ pre a post, acts = pre ++ a :: post →
      ((start inv₀).run X pre).inv.KeepsSight (lastListing pre) a := by
  constructor
  · intro hall pre a post hsplit
    have hpre : pre <+: acts := ⟨a :: post, hsplit.symm⟩
    have hnext : pre ++ [a] <+: acts := ⟨post, by rw [hsplit, List.append_assoc, List.singleton_append]⟩
    exact (accounted_step h₀ (hall pre hpre).1 a).mp (hall _ hnext).1
  · intro hkeep pre
    induction pre using List.reverseRecOn with
    | nil =>
      intro _
      have hacc : ((start inv₀).run X []).inv.Accounted (lastListing []) := by
        intro k hk
        rw [show ((start inv₀).run X []).inv.seen = ∅ from h₀.seen] at hk
        simp at hk
      exact ⟨hacc, hacc.size_le⟩
    | append_singleton pre a ih =>
      rintro ⟨post, hsplit⟩
      rw [List.append_assoc, List.singleton_append] at hsplit
      have hacc := (accounted_step h₀ (ih ⟨a :: post, hsplit⟩).1 a).mpr
        (hkeep pre a post hsplit.symm)
      exact ⟨hacc, hacc.size_le⟩

/-- An object comes, its creation is acknowledged, and it goes. -/
def comesConfirmed : List Act :=
  [.poll 0 [], .poll 1 [{ key := "a" }], .ack (Cursor.toValue ⟨1, 0, none⟩), .poll 2 []]

theorem accounted_run_iff_confirmed :
    ((start Inventory.plainInventory).run plainExterns comesConfirmed).inv.seen.keys = ["a"] ∧
      ((start Inventory.plainInventory).run plainExterns comesConfirmed).inv.Accounted
        (lastListing comesConfirmed) := by
  have hkeep : ∀ i : Fin comesConfirmed.length,
      ((start Inventory.plainInventory).run plainExterns (comesConfirmed.take i)).inv.KeepsSight
        (lastListing (comesConfirmed.take i)) (comesConfirmed.get i) := by decide +kernel
  exact ⟨by decide +kernel, ((accounted_run_iff Inventory.plainInventory_started comesConfirmed).mpr
    (forall_split_of_get hkeep) comesConfirmed List.prefix_rfl).1⟩

/-- An object comes and goes before the host acknowledges anything. -/
def comesAndGoes : List Act :=
  [.poll 0 [], .poll 1 [{ key := "a" }], .poll (millis 60000 + 1) []]

/-- **A creation that times out after its object left leaks its details**: the key is neither
confirmed, in flight nor listed, and nothing will ever drop it. -/
theorem expired_creation_leaks :
    ¬ ∀ (X : Externs) (inv₀ : Inventory), Inventory.Started X inv₀ → ∀ acts : List Act,
      ((start inv₀).run X acts).inv.Accounted (lastListing acts) := by
  intro hclaim
  have hacc := hclaim _ _ Inventory.plainInventory_started comesAndGoes
  have hseen :
      "a" ∈ ((start Inventory.plainInventory).run plainExterns comesAndGoes).inv.seen.keys := by
    decide +kernel
  have hnone :
      ((start Inventory.plainInventory).run plainExterns comesAndGoes).inv.confirmed.keys = [] ∧
      ((start Inventory.plainInventory).run plainExterns comesAndGoes).inv.pending = [] ∧
      lastListing comesAndGoes = [] := by decide +kernel
  rcases hacc "a" hseen with hin | ⟨p, hp, -⟩ | ⟨e, he, -⟩
  · rw [hnone.1] at hin
    cases hin
  · rw [hnone.2.1] at hp
    cases hp
  · rw [hnone.2.2] at he
    cases he

end History

end McpgSdk
