import McpgSdk.Inventory.History

/-!
# Event ids

The id of an event hashes the store, the location, the key, the operation and the digest the change
leads to. So a change the host never acknowledged keeps its id when it is reported again. But
nothing else enters the id: a key that is deleted, created and deleted again gives its two deletions
one id.

* `idParts_inj`: what is hashed determines the key, the operation and the digest;
* **`id_names_one_change`**: as long as no listing repeats an acknowledged change, two events share
  an id only when the first was not acknowledged before the second was emitted;
* `second_deletion_repeats_id`: without that, a second deletion repeats the id of the first.
-/

set_option autoImplicit false

namespace McpgSdk

open OrdMap

/-! ## What is hashed -/

theorem length_bytes (s : String) : (bytes s).length = s.utf8ByteSize := by simp [bytes]

theorem bytes_inj {s t : String} (h : bytes s = bytes t) : s = t :=
  String.toByteArray_inj.mp (ByteArray.ext (Array.toList_inj.mp h))

theorem div_eq_of_byte {n m : ℕ} (k : ℕ) (h : n / 2 ^ (k + 8) = m / 2 ^ (k + 8))
    (hb : UInt8.ofNat (n / 2 ^ k) = UInt8.ofNat (m / 2 ^ k)) : n / 2 ^ k = m / 2 ^ k := by
  have hmod : n / 2 ^ k % 256 = m / 2 ^ k % 256 := by simpa using congrArg UInt8.toNat hb
  rw [pow_add, ← Nat.div_div_eq_div_mul, ← Nat.div_div_eq_div_mul] at h
  rw [← Nat.div_add_mod (n / 2 ^ k) (2 ^ 8), ← Nat.div_add_mod (m / 2 ^ k) (2 ^ 8), h]
  exact congrArg _ hmod

theorem u64BeBytes_inj {n m : ℕ} (hn : n < 2 ^ 64) (hm : m < 2 ^ 64)
    (h : u64BeBytes n = u64BeBytes m) : n = m := by
  simp only [u64BeBytes, List.map_cons, List.map_nil, List.cons.injEq, and_true] at h
  obtain ⟨h7, h6, h5, h4, h3, h2, h1, h0⟩ := h
  have h8 : n / 2 ^ 64 = m / 2 ^ 64 := by rw [Nat.div_eq_of_lt hn, Nat.div_eq_of_lt hm]
  have h7 := div_eq_of_byte 56 h8 h7
  have h6 := div_eq_of_byte 48 h7 h6
  have h5 := div_eq_of_byte 40 h6 h5
  have h4 := div_eq_of_byte 32 h5 h4
  have h3 := div_eq_of_byte 24 h4 h3
  have h2 := div_eq_of_byte 16 h3 h2
  have h1 := div_eq_of_byte 8 h2 h1
  simpa using div_eq_of_byte 0 h1 h0

theorem hashInput_cons (p : String) (ps : List String) :
    hashInput (p :: ps) = u64BeBytes p.utf8ByteSize ++ (bytes p ++ hashInput ps) := by
  simp [hashInput]

theorem hashInput_append (ps qs : List String) :
    hashInput (ps ++ qs) = hashInput ps ++ hashInput qs := List.flatMap_append

/-- The first part can be read back, when its length fits its eight bytes. -/
theorem hashInput_cons_inj {p q : String} {ps qs : List String} (hp : p.utf8ByteSize < 2 ^ 64)
    (hq : q.utf8ByteSize < 2 ^ 64) (h : hashInput (p :: ps) = hashInput (q :: qs)) :
    p = q ∧ hashInput ps = hashInput qs := by
  rw [hashInput_cons, hashInput_cons] at h
  obtain ⟨hlen, h⟩ := List.append_inj h rfl
  have hsize : (bytes p).length = (bytes q).length := by
    rw [length_bytes, length_bytes]
    exact u64BeBytes_inj hp hq hlen
  obtain ⟨hb, h⟩ := List.append_inj h hsize
  exact ⟨bytes_inj hb, h⟩

theorem hashInput_singleton_inj {p q : String} (h : hashInput [p] = hashInput [q]) : p = q := by
  rw [hashInput_cons, hashInput_cons] at h
  obtain ⟨-, h⟩ := List.append_inj h rfl
  exact bytes_inj (List.append_cancel_right h)

theorem op_name_inj {a b : ObjectOp} (h : "\"" ++ a.name ++ "\"" = "\"" ++ b.name ++ "\"") :
    a = b := by
  revert h
  cases a <;> cases b <;> decide

theorem op_name_size (a : ObjectOp) : ("\"" ++ a.name ++ "\"").utf8ByteSize < 2 ^ 64 := by
  cases a <;> decide

namespace Inventory

/-- A key that a string of the source's can hold. -/
def KeyFits (c : Change) : Prop := c.entry.key.utf8ByteSize < 2 ^ 64

instance : DecidablePred KeyFits := fun _ => inferInstanceAs (Decidable (_ < 2 ^ 64))

/-- **What an id hashes determines the change.** -/
theorem idParts_inj {inv : Inventory} {c c' : Change} (hc : KeyFits c) (hc' : KeyFits c')
    (h : hashInput (inv.idParts c) = hashInput (inv.idParts c')) :
    c.entry.key = c'.entry.key ∧ c.op = c'.op ∧ c.digest.getD "" = c'.digest.getD "" := by
  have hsplit : ∀ c, hashInput (inv.idParts c) = hashInput [inv.options.store, inv.options.location]
      ++ hashInput [c.entry.key, "\"" ++ c.op.name ++ "\"", c.digest.getD ""] := fun c => by
    rw [← hashInput_append]
    rfl
  rw [hsplit, hsplit] at h
  have h := List.append_cancel_left h
  obtain ⟨hk, h⟩ := hashInput_cons_inj hc hc' h
  obtain ⟨ho, h⟩ := hashInput_cons_inj (op_name_size _) (op_name_size _) h
  exact ⟨hk, op_name_inj ho, hashInput_singleton_inj h⟩

end Inventory

/-! ## Ids along a run -/

namespace History

/-- An id names one change: when two emitted events share it, the change of the first was not
acknowledged before the second was emitted. -/
def IdNamesOneChange (h : History) : Prop :=
  ∀ pre e post, h.trace = pre ++ Happening.emitted e :: post →
    ∀ e' ∈ pre.filterMap Happening.emit?, e'.event.eventId = e.event.eventId →
      ∀ p ∈ pre.filterMap Happening.ack?, p.seq ≠ e'.seq

/-- A change of `k` by `op` to `target` was emitted and acknowledged. -/
def Acknowledged (h : History) (k : String) (op : ObjectOp) (target : Option String) : Prop :=
  ∃ e ∈ h.emits, (∃ p ∈ h.acks, p.seq = e.seq) ∧
    e.change.entry.key = k ∧ e.change.op = op ∧ e.change.digest = target

/-- The listing repeats no acknowledged change: a key on which it differs from the confirmed listing,
and not as a change in flight already says, does not differ in a way already acknowledged. -/
def NewChanges (X : Externs) (h : History) : Act → Prop
  | .ack _ => True
  | .poll now listing =>
    ∀ k, h.inv.confirmed[k]? ≠ (Inventory.digestsOf X (Inventory.currentOf listing))[k]? →
      (h.inv.live now).pendingDigest k ≠
        some (Inventory.digestsOf X (Inventory.currentOf listing))[k]? →
      ¬ h.Acknowledged k (Inventory.opOf h.inv.confirmed[k]?
        (Inventory.digestsOf X (Inventory.currentOf listing))[k]?)
        (Inventory.digestsOf X (Inventory.currentOf listing))[k]?

/-- Every emitted event has the id of its change, and an operation that fits its digest. -/
structure Ids (X : Externs) (inv₀ : Inventory) (h : History) : Prop where
  inv : h.Inv
  options : h.inv.options = inv₀.options
  ids : ∀ e ∈ h.emits, e.event.eventId =
    some ("obj-" ++ X.blake3Hex 32 (hashInput (inv₀.idParts e.change)))
  ops : ∀ e ∈ h.emits, e.change.op = .deleted ↔ e.change.digest = none

theorem idParts_congr {inv inv' : Inventory} (h : inv.options = inv'.options) (c : Change) :
    inv.idParts c = inv'.idParts c := by
  simp only [Inventory.idParts, h]

theorem opOf_deleted (c t : Option String) : Inventory.opOf c t = .deleted ↔ t = none := by
  cases c <;> cases t <;> simp [Inventory.opOf]

theorem ids_step {X : Externs} {inv₀ : Inventory} {h : History} (hi : Ids X inv₀ h) (a : Act) :
    Ids X inv₀ (h.step X a) := by
  cases a with
  | ack position =>
    refine ⟨inv_ack X hi.inv position, (options_step X h _).trans hi.options, ?_, ?_⟩
    · rw [emits_ack]
      exact hi.ids
    · rw [emits_ack]
      exact hi.ops
  | poll now listing =>
    refine ⟨inv_poll X hi.inv now listing, (options_step X h _).trans hi.options, ?_, ?_⟩
    all_goals
      intro e he
      rw [emits_poll] at he
      rcases List.mem_append.mp he with he | he
    · exact hi.ids e he
    · have hb := Inventory.baseline_of_emitted he
      rw [((Inventory.pollCore_compare X now listing hb).2.2.2 e he).2.1,
        idParts_congr hi.options]
    · exact hi.ops e he
    · obtain ⟨hd, -, -, ho⟩ := Inventory.spec_of_emitted hi.inv.wf he
      rw [ho, hd]
      exact opOf_deleted _ _

theorem ids_of_reach {X : Externs} {inv₀ : Inventory} {ok : History → Act → Prop} {h : History}
    (h₀ : Inventory.Started X inv₀) (hr : Reach (Steps X) ok (start inv₀) h) : Ids X inv₀ h := by
  refine hr.invariant ⟨inv_start h₀, rfl, by simp [emits, start], by simp [emits, start]⟩
    fun u a v hu _ hs => ?_
  obtain rfl : v = u.step X a := hs
  exact ids_step hu a

theorem same_change {X : Externs} (hX : Function.Injective (X.blake3Hex 32)) {inv₀ : Inventory}
    {e e' : Emitted} (hid : e.event.eventId =
      some ("obj-" ++ X.blake3Hex 32 (hashInput (inv₀.idParts e.change))))
    (hid' : e'.event.eventId =
      some ("obj-" ++ X.blake3Hex 32 (hashInput (inv₀.idParts e'.change))))
    (ho : e.change.op = .deleted ↔ e.change.digest = none)
    (ho' : e'.change.op = .deleted ↔ e'.change.digest = none)
    (hk : Inventory.KeyFits e.change) (hk' : Inventory.KeyFits e'.change)
    (h : e.event.eventId = e'.event.eventId) :
    e.change.entry.key = e'.change.entry.key ∧ e.change.op = e'.change.op ∧
      e.change.digest = e'.change.digest := by
  rw [hid, hid', Option.some.injEq] at h
  obtain ⟨hkey, hop, hd⟩ := Inventory.idParts_inj hk hk' (hX (String.append_right_inj _ |>.mp h))
  refine ⟨hkey, hop, ?_⟩
  -- no digest means a deletion, so equal operations tell an empty digest from none
  cases hc : e.change.digest with
  | none => exact (ho'.mp (hop.symm.trans (ho.mpr hc))).symm
  | some d =>
    cases hc' : e'.change.digest with
    | none =>
      rw [ho.mp (hop.trans (ho'.mpr hc'))] at hc
      cases hc
    | some d' =>
      rw [hc, hc'] at hd
      exact congrArg some hd

theorem mem_added {X : Externs} {h : History} {now : Nanos} {listing : List ObjectEntry}
    {x : Happening} (hx : x ∈ (forgotten h.inv listing).map Happening.forgot ++
      (h.inv.pollCore X now listing).2.map Happening.emitted) :
    x.ack? = none ∧ ∀ e, x.emit? = some e → e ∈ (h.inv.pollCore X now listing).2 := by
  rcases List.mem_append.mp hx with hx | hx
  · obtain ⟨k, -, rfl⟩ := List.mem_map.mp hx
    exact ⟨rfl, fun e he => by cases he⟩
  · obtain ⟨e, he, rfl⟩ := List.mem_map.mp hx
    exact ⟨rfl, fun e' he' => Option.some.inj he' ▸ he⟩

/-- A poll that repeats no acknowledged change gives no event the id of an acknowledged one. -/
theorem poll_new_id {X : Externs} (hX : Function.Injective (X.blake3Hex 32)) {inv₀ : Inventory}
    {h : History} (hi : Ids X inv₀ h) {now : Nanos} {listing : List ObjectEntry}
    (hn : NewChanges X h (.poll now listing))
    (hk : ∀ e ∈ (h.step X (.poll now listing)).emits, Inventory.KeyFits e.change) {e e' : Emitted}
    (he : e ∈ (h.inv.pollCore X now listing).2)
    (he' : e' ∈ (h.step X (.poll now listing)).emits)
    (hid : e'.event.eventId = e.event.eventId) {p : Pending} (hp : p ∈ h.acks) :
    p.seq ≠ e'.seq := by
  intro hseq
  have hi' := ids_step hi (.poll now listing)
  have hmem : e ∈ (h.step X (.poll now listing)).emits := by
    rw [emits_poll]
    exact List.mem_append_right _ he
  obtain ⟨hkey, hop, hd⟩ := same_change hX (hi'.ids e' he') (hi'.ids e hmem) (hi'.ops e' he')
    (hi'.ops e hmem) (hk e' he') (hk e hmem) hid
  rw [emits_poll] at he'
  rcases List.mem_append.mp he' with he' | he'
  · -- an earlier event: its change is the one the listing repeats
    obtain ⟨hdig, hne, hpend, ho⟩ := Inventory.spec_of_emitted hi.inv.wf he
    exact hn _ hne hpend ⟨e', he', ⟨p, hp, hseq⟩, hkey, hop.trans ho, hd.trans hdig⟩
  · -- an event of the same poll is too new to be acknowledged
    obtain ⟨e'', he'', hr, -, -⟩ := hi.inv.acked p hp
    have h1 := hi.inv.emitted e'' he''
    have h2 := (Inventory.seq_of_emitted he').1
    omega

theorem idNames_ack {X : Externs} {h : History} (ih : h.IdNamesOneChange) (position : Json) :
    (h.step X (.ack position)).IdNamesOneChange := by
  intro pre e post ht e' he' hid p hp
  rcases append_split ht with ⟨more, hm⟩ | ⟨add, -, hadd⟩
  · exact ih pre e more hm e' he' hid p hp
  · have hmem : Happening.emitted e ∈ ((h.inv.acknowledges position).map Happening.acked).toList := by
      rw [hadd]
      exact List.mem_append_right _ List.mem_cons_self
    obtain ⟨q, -, hq⟩ := Option.map_eq_some_iff.mp (Option.mem_toList.mp hmem)
    cases hq

theorem idNames_poll {X : Externs} (hX : Function.Injective (X.blake3Hex 32)) {inv₀ : Inventory}
    {h : History} (hi : Ids X inv₀ h) (ih : h.IdNamesOneChange) {now : Nanos}
    {listing : List ObjectEntry} (hn : NewChanges X h (.poll now listing))
    (hk : ∀ e ∈ (h.step X (.poll now listing)).emits, Inventory.KeyFits e.change) :
    (h.step X (.poll now listing)).IdNamesOneChange := by
  intro pre e post ht e' he' hid p hp
  rcases append_split ht with ⟨more, hm⟩ | ⟨add, rfl, hadd⟩
  · exact ih pre e more hm e' he' hid p hp
  have hin : ∀ x ∈ add, x ∈ (forgotten h.inv listing).map Happening.forgot ++
      (h.inv.pollCore X now listing).2.map Happening.emitted := fun x hx => by
    rw [hadd]
    exact List.mem_append_left _ hx
  have he : e ∈ (h.inv.pollCore X now listing).2 := by
    refine (mem_added (x := .emitted e) ?_).2 e rfl
    rw [hadd]
    exact List.mem_append_right _ List.mem_cons_self
  rw [List.filterMap_append, List.mem_append] at he' hp
  have hacks : p ∈ h.acks := hp.resolve_right fun hp => by
    obtain ⟨x, hx, hxp⟩ := List.mem_filterMap.mp hp
    rw [(mem_added (hin x hx)).1] at hxp
    cases hxp
  have hemits : e' ∈ (h.step X (.poll now listing)).emits := by
    rw [emits_poll]
    rcases he' with he' | he'
    · exact List.mem_append_left _ he'
    · obtain ⟨x, hx, hxe⟩ := List.mem_filterMap.mp he'
      exact List.mem_append_right _ ((mem_added (hin x hx)).2 e' hxe)
  exact poll_new_id hX hi hn hk he hemits hid hacks

theorem emits_step_subset (X : Externs) (h : History) (a : Act) : h.emits ⊆ (h.step X a).emits := by
  cases a with
  | poll now listing =>
    rw [emits_poll]
    exact List.subset_append_left _ _
  | ack position =>
    rw [emits_ack]
    exact List.Subset.refl _

/-- **An id names one change**, in every run whose listings repeat no acknowledged change. The hash
prefix is assumed injective, and keys to be as short as a string of the source's is. -/
theorem id_names_one_change {X : Externs} (hX : Function.Injective (X.blake3Hex 32))
    {inv₀ : Inventory} (h₀ : Inventory.Started X inv₀) {h : History}
    (hr : Reach (Steps X) (NewChanges X) (start inv₀) h)
    (hk : ∀ e ∈ h.emits, Inventory.KeyFits e.change) : h.IdNamesOneChange := by
  induction hr with
  | refl =>
    intro pre e post ht
    cases pre <;> cases ht
  | @tail g g' a hg hn hs ih =>
    obtain rfl : g' = g.step X a := hs
    have ih := ih fun e he => hk e (emits_step_subset X g a he)
    cases a with
    | ack position => exact idNames_ack ih position
    | poll now listing => exact idNames_poll hX (ids_of_reach h₀ hg) ih hn hk

theorem plainExterns_injective (n : ℕ) : Function.Injective (plainExterns.blake3Hex n) := by
  intro a b h
  refine List.map_injective_iff.mpr (fun x y hxy => ?_) (String.ofList_injective h)
  have hv : ∀ z : UInt8, (Char.ofNat z.toNat).toNat = z.toNat := fun z => by
    rw [Char.toNat_ofNat, if_pos (.inl (by have := z.toNat_lt; omega))]
  exact UInt8.toNat_inj.mp ((hv x).symm.trans ((congrArg Char.toNat hxy).trans (hv y)))

theorem newChanges_of_no_acks {X : Externs} {h : History} (ha : h.acks = []) (a : Act) :
    NewChanges X h a := by
  cases a with
  | ack position => trivial
  | poll now listing =>
    rintro k - - ⟨e, -, ⟨p, hp, -⟩, -⟩
    rw [ha] at hp
    cases hp

/-- A change lost on the way, reported again after its timeout. -/
def reportedAgain : List Act :=
  [.poll 0 [], .poll 1 [{ key := "a" }], .poll (1 + millis 60000) [{ key := "a" }]]

theorem id_names_one_change_reportedAgain :
    let h := (start Inventory.plainInventory).run plainExterns reportedAgain
    h.emits.map Emitted.seq = [0, 1] ∧
      (h.emits.map fun e => e.event.eventId).dedup.length = 1 ∧ h.IdNamesOneChange := by
  refine ⟨by decide +kernel, by decide +kernel, ?_⟩
  have hacks : ∀ pre ∈ reportedAgain.inits,
      ((start Inventory.plainInventory).run plainExterns pre).acks = [] := by decide +kernel
  refine id_names_one_change (plainExterns_injective 32) Inventory.plainInventory_started
    (reach_run_of _ _ _ fun pre a post h => newChanges_of_no_acks (hacks pre ?_) a)
    (by decide +kernel)
  exact (List.mem_inits _ _).mpr ⟨a :: post, h.symm⟩

/-- A key deleted, created again and deleted again, each change acknowledged. -/
def deletedTwice : List Act :=
  [.poll 0 [{ key := "a" }], .poll 1 [], .ack (Cursor.toValue ⟨1, 0, none⟩),
    .poll 2 [{ key := "a" }], .ack (Cursor.toValue ⟨1, 1, none⟩), .poll 3 []]

/-- **A second deletion repeats the id of the first**, although the first was acknowledged. -/
theorem second_deletion_repeats_id :
    ¬ ∀ X : Externs, Function.Injective (X.blake3Hex 32) → ∀ inv₀, Inventory.Started X inv₀ →
      ∀ h, Reach (Steps X) anyStep (start inv₀) h →
        (∀ e ∈ h.emits, Inventory.KeyFits e.change) → h.IdNamesOneChange := by
  intro H
  have hid := H plainExterns (plainExterns_injective 32) _ Inventory.plainInventory_started
    ((start Inventory.plainInventory).run plainExterns deletedTwice) (reach_run _ _ _)
    (by decide +kernel)
  -- `g` is the run before the last poll, `e` the event that poll emits
  set g := (start Inventory.plainInventory).run plainExterns deletedTwice.dropLast with hg
  obtain ⟨e, he⟩ := List.length_eq_one_iff.mp
    (show (g.inv.pollCore plainExterns 3 []).2.length = 1 by decide +kernel)
  obtain ⟨e₀, e₁, hemits⟩ := List.length_eq_two.mp
    (show g.emits.length = 2 by decide +kernel)
  obtain ⟨p₀, p₁, hacks⟩ := List.length_eq_two.mp (show g.acks.length = 2 by decide +kernel)
  have hseq : g.acks.map Pending.seq = g.emits.map Emitted.seq := by decide +kernel
  have hsame : ((g.emits ++ (g.inv.pollCore plainExterns 3 []).2).map fun e => e.event.eventId)[0]? =
      ((g.emits ++ (g.inv.pollCore plainExterns 3 []).2).map fun e => e.event.eventId)[2]? := by
    decide +kernel
  rw [hemits, he] at hsame
  rw [hacks, hemits] at hseq
  refine hid g.trace e [] ?_ e₀ (show e₀ ∈ g.emits from hemits ▸ List.mem_cons_self)
    (Option.some.inj hsame) p₀ (show p₀ ∈ g.acks from hacks ▸ List.mem_cons_self)
    (List.cons.inj hseq).1
  change g.trace ++ ((forgotten g.inv []).map Happening.forgot ++
    (g.inv.pollCore plainExterns 3 []).2.map Happening.emitted) = _
  rw [he, show forgotten g.inv [] = [] by decide +kernel]
  rfl

end History

end McpgSdk
