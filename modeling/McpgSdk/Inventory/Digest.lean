import Mathlib.Data.Nat.Digits.Defs
import McpgSdk.Inventory.EventId
import McpgSdk.Lib.Utf8

/-!
# What a digest sees

The digest of an object hashes four texts: its size, its time, its etag and its version, each with its
length before it, and an absent one as the empty text. A number has no empty text, but an etag or a
version may be empty.

* `ObjectEntry.digestParts`, `ObjectEntry.Fits`: what is hashed, and the bounds of the source's types;
* `digestParts_inj`: what is hashed determines the four texts;
* **`digest_sees_iff`**: what is hashed differs, the digests differ and a poll reports a modification
  exactly when the two differ with absent and empty taken for the same;
* `empty_etag_unseen`: an etag that becomes empty is not seen.
-/

set_option autoImplicit false

namespace McpgSdk

open OrdMap Utf8

namespace ObjectEntry

/-- What a digest hashes. -/
def digestParts (e : ObjectEntry) : List String :=
  [(e.size.map toString).getD "", (e.modifiedAtMs.map toString).getD "", e.etag.getD "",
    e.version.getD ""]

theorem digest_eq (X : Externs) (e : ObjectEntry) :
    e.digest X = X.blake3Hex 12 (hashInput e.digestParts) := rfl

/-- The entry has values of the source's types: a `u64`, an `i64`, and a text of a length that fits a
`u64`. -/
structure Fits (e : ObjectEntry) : Prop where
  size : ∀ n ∈ e.size, n < 2 ^ 64
  modifiedAtMs : ∀ m ∈ e.modifiedAtMs, -2 ^ 63 ≤ m ∧ m < 2 ^ 63
  etag : ∀ t ∈ e.etag, t.utf8ByteSize < 2 ^ 64

/-- What the store reports of the two differs, with an absent etag or version taken for an empty
one. -/
def DiffersFrom (e e' : ObjectEntry) : Prop :=
  e.size ≠ e'.size ∨ e.modifiedAtMs ≠ e'.modifiedAtMs ∨ e.etag.getD "" ≠ e'.etag.getD "" ∨
    e.version.getD "" ≠ e'.version.getD ""

end ObjectEntry

/-! ## Numbers as texts -/

theorem utf8ByteSize_le (s : String) : s.utf8ByteSize ≤ 4 * s.length := by
  have hchars : ∀ cs : List Char, (utf8 cs).length ≤ 4 * cs.length := by
    intro cs
    induction cs with
    | nil => exact Nat.le_refl 0
    | cons c cs ih =>
      have hc := Char.utf8Size_le_four c
      rw [utf8_cons, List.length_append, String.length_utf8EncodeChar, List.length_cons]
      omega
  rw [← length_bytes, bytes, toByteArray_eq_utf8, ← String.length_toList]
  exact hchars s.toList

theorem size_repr {n : ℕ} (h : n < 10 ^ 20) : n.repr.utf8ByteSize ≤ 80 := by
  have hlength := Nat.repr_length n 20 (by decide) h
  have hbytes := utf8ByteSize_le n.repr
  omega

theorem size_toString_int {m : ℤ} (h : -2 ^ 63 ≤ m ∧ m < 2 ^ 63) :
    (toString m).utf8ByteSize < 2 ^ 64 := by
  cases m with
  | ofNat n =>
    have hn : n < 10 ^ 20 := by
      have hlt := h.2
      simp only [Int.ofNat_eq_natCast] at hlt
      omega
    have hsize := size_repr hn
    change n.repr.utf8ByteSize < 2 ^ 64
    omega
  | negSucc n =>
    have hn : n.succ < 10 ^ 20 := by
      have hle := h.1
      omega
    have hsize := size_repr hn
    change ("-" ++ n.succ.repr).utf8ByteSize < 2 ^ 64
    rw [String.utf8ByteSize_append]
    have hsign : "-".utf8ByteSize = 1 := rfl
    omega

theorem toString_int_ne_empty (m : ℤ) : toString m ≠ "" := by
  cases m with
  | ofNat n => exact Nat.repr_ne_empty
  | negSucc n =>
    intro h
    have hsize := congrArg String.utf8ByteSize h
    change ("-" ++ n.succ.repr).utf8ByteSize = 0 at hsize
    rw [String.utf8ByteSize_append] at hsize
    have hsign : "-".utf8ByteSize = 1 := rfl
    omega

/-- A value that is never written as the empty text is read back, absent or not. -/
theorem getD_map_inj {α : Type} {f : α → String} (hf : Function.Injective f) (hne : ∀ a, f a ≠ "")
    {o o' : Option α} (h : (o.map f).getD "" = (o'.map f).getD "") : o = o' := by
  cases o with
  | none =>
    cases o' with
    | none => rfl
    | some a' => exact absurd h.symm (hne a')
  | some a =>
    cases o' with
    | none => exact absurd h (hne a)
    | some a' => rw [hf h]

theorem size_getD {α : Type} {f : α → String} {o : Option α}
    (h : ∀ a ∈ o, (f a).utf8ByteSize < 2 ^ 64) : ((o.map f).getD "").utf8ByteSize < 2 ^ 64 := by
  cases o with
  | none => exact (by decide : "".utf8ByteSize < 2 ^ 64)
  | some a => exact h a rfl

/-! ## What is hashed -/

namespace ObjectEntry

/-- **What a digest hashes determines** the size, the time, and the etag and version as texts. -/
theorem digestParts_inj {e e' : ObjectEntry} (he : e.Fits) (he' : e'.Fits) :
    hashInput e.digestParts = hashInput e'.digestParts ↔ ¬ e.DiffersFrom e' := by
  constructor
  · intro h
    have hsize : ∀ {e : ObjectEntry}, e.Fits →
        ((e.size.map toString).getD "").utf8ByteSize < 2 ^ 64 := by
      intro e he
      refine size_getD fun n hn => ?_
      have hrepr := size_repr (show n < 10 ^ 20 from (he.size n hn).trans (by decide))
      change n.repr.utf8ByteSize < 2 ^ 64
      omega
    have htime : ∀ {e : ObjectEntry}, e.Fits →
        ((e.modifiedAtMs.map toString).getD "").utf8ByteSize < 2 ^ 64 :=
      fun he => size_getD fun m hm => size_toString_int (he.modifiedAtMs m hm)
    have hetag : ∀ {e : ObjectEntry}, e.Fits → (e.etag.getD "").utf8ByteSize < 2 ^ 64 := by
      intro e he
      have hid := size_getD (f := id) he.etag
      rwa [Option.map_id] at hid
    obtain ⟨h₁, h⟩ := hashInput_cons_inj (hsize he) (hsize he') h
    obtain ⟨h₂, h⟩ := hashInput_cons_inj (htime he) (htime he') h
    obtain ⟨h₃, h⟩ := hashInput_cons_inj (hetag he) (hetag he') h
    have h₄ := hashInput_singleton_inj h
    have hnat : e.size = e'.size :=
      getD_map_inj (fun _ _ => Nat.repr_injective) (fun _ => Nat.repr_ne_empty) h₁
    have hint : e.modifiedAtMs = e'.modifiedAtMs :=
      getD_map_inj (fun _ _ => Int.repr_injective) toString_int_ne_empty h₂
    rintro (hne | hne | hne | hne)
    · exact hne hnat
    · exact hne hint
    · exact hne h₃
    · exact hne h₄
  · intro h
    simp only [DiffersFrom, not_or, ne_eq, not_not] at h
    obtain ⟨h₁, h₂, h₃, h₄⟩ := h
    rw [digestParts, digestParts, h₁, h₂, h₃, h₄]

end ObjectEntry

/-! ## What a poll reports -/

namespace History

/-- **A poll with room for all changes** reports a modification of a confirmed key of which nothing is
in flight exactly when the listed entry has another digest. -/
theorem modified_iff {X : Externs} {inv₀ : Inventory} {h : History} {now : Nanos}
    {listing : List ObjectEntry} {k known : String} {e : ObjectEntry}
    (h₀ : Inventory.Started X inv₀) (hr : Reach (Steps X) anyStep (start inv₀) h)
    (hb : h.inv.baseline ≠ .silent) (hknown : h.inv.confirmed[k]? = some known)
    (hpending : (h.inv.live now).pendingDigest k = none)
    (he : (Inventory.currentOf listing)[k]? = some e)
    (hroom : ((h.inv.live now).changes X (Inventory.currentOf listing)).length ≤
      (h.inv.live now).room) :
    (∃ m ∈ (h.inv.pollCore X now listing).2, m.change.entry.key = k ∧ m.change.op = .modified) ↔
      known ≠ e.digest X := by
  have hw := (inv_of_reach h₀ hr).wf
  have htarget : (Inventory.digestsOf X (Inventory.currentOf listing))[k]? = some (e.digest X) := by
    rw [Inventory.getElem?_digestsOf, he]
    rfl
  constructor
  · rintro ⟨m, hm, rfl, -⟩
    have hne := (Inventory.spec_of_emitted hw hm).2.1
    rw [hknown, htarget] at hne
    exact fun heq => hne (congrArg some heq)
  · intro hne
    have hexists : ∃ m ∈ (h.inv.pollCore X now listing).2, m.change.entry.key = k := by
      apply Inventory.exists_emitted_of_room hw hb hroom
      · rw [htarget]
        exact nofun
      · rw [hknown, htarget]
        exact fun heq => hne (Option.some.inj heq)
      · rw [hpending]
        exact nofun
    obtain ⟨m, hm, rfl⟩ := hexists
    have hop := (Inventory.spec_of_emitted hw hm).2.2.2
    rw [hknown, htarget] at hop
    exact ⟨m, hm, rfl, hop⟩

end History

namespace ObjectEntry

/-- **What a digest sees.** Of two entries, the bytes that are hashed differ if and only if the entries
differ in size, time, etag or version with an absent etag or version taken for an empty one. When the
hash has no collision there, so do the digests, and a poll, with room for all changes, of an inventory
that has confirmed the first and finds the second reports a modification if and only if they do. -/
theorem digest_sees_iff {e e' : ObjectEntry} (he : e.Fits) (he' : e'.Fits) :
    (hashInput e.digestParts ≠ hashInput e'.digestParts ↔ e.DiffersFrom e') ∧
    ∀ X : Externs,
      (X.blake3Hex 12 (hashInput e.digestParts) = X.blake3Hex 12 (hashInput e'.digestParts) →
        hashInput e.digestParts = hashInput e'.digestParts) →
      (e.digest X ≠ e'.digest X ↔ e.DiffersFrom e') ∧
      ∀ (inv₀ : Inventory) (h : History) (now : Nanos) (listing : List ObjectEntry) (k : String),
        Inventory.Started X inv₀ → Reach (History.Steps X) anyStep (History.start inv₀) h →
        h.inv.baseline ≠ .silent → h.inv.confirmed[k]? = some (e.digest X) →
        (h.inv.live now).pendingDigest k = none → (Inventory.currentOf listing)[k]? = some e' →
        ((h.inv.live now).changes X (Inventory.currentOf listing)).length ≤ (h.inv.live now).room →
        ((∃ m ∈ (h.inv.pollCore X now listing).2,
          m.change.entry.key = k ∧ m.change.op = .modified) ↔ e.DiffersFrom e') := by
  have hbytes : hashInput e.digestParts ≠ hashInput e'.digestParts ↔ e.DiffersFrom e' := by
    rw [ne_eq, digestParts_inj he he', not_not]
  refine ⟨hbytes, fun X hX => ?_⟩
  have hdigest : e.digest X ≠ e'.digest X ↔ e.DiffersFrom e' := by
    rw [digest_eq, digest_eq, ← hbytes]
    exact not_congr ⟨hX, congrArg _⟩
  refine ⟨hdigest, fun inv₀ h now listing k h₀ hr hb hknown hpending hlisted hroom => ?_⟩
  rw [History.modified_iff h₀ hr hb hknown hpending hlisted hroom, hdigest]

/-- A size that is no longer known. -/
theorem digest_sees_iff_size :
    (⟨"a", some 0, none, none, none⟩ : ObjectEntry).digest plainExterns ≠
      (⟨"a", none, none, none, none⟩ : ObjectEntry).digest plainExterns := by
  refine (((digest_sees_iff ?_ ?_).2 plainExterns fun h => ?_).1).mpr (.inl ?_)
  · exact ⟨by simp, by simp, by simp⟩
  · exact ⟨by simp, by simp, by simp⟩
  · exact History.plainExterns_injective 12 h
  · decide

/-- **An etag that becomes empty is not seen**: an absent one is hashed as the empty text. -/
theorem empty_etag_unseen :
    ¬ ∀ e e' : ObjectEntry, e.Fits → e'.Fits →
      e.size ≠ e'.size ∨ e.modifiedAtMs ≠ e'.modifiedAtMs ∨ e.etag ≠ e'.etag ∨ e.version ≠ e'.version →
      hashInput e.digestParts ≠ hashInput e'.digestParts := by
  intro h
  have hne := h { key := "a" } { key := "a", etag := some "" } ⟨by simp, by simp, by simp⟩
    ⟨by simp, by simp, by simp⟩ (by decide)
  exact hne rfl

end ObjectEntry

end McpgSdk
