import Mathlib

/-!
# Ordered maps, patches and disagreement

An ordered map is used up to its contents, so two maps with the same lookups are equal. A patch sets
or removes one key. Patches act on maps (`patchAll`) and on views, plain functions from keys to
values (`applyAll`); the two actions agree (`look_patchAll`).

* `applyAll_of_not_mem`, `applyAll_of_mem`: what a list of patches does at a key;
* `disagree a b`: the keys on which two maps differ, with **`disagree_patchAll`**: patches that write
  what `b` has remove exactly their keys from it;
* `size_lt_of_missing`: a map with part of another's entries is smaller;
* `getElem?_ofList_zip`: distinct keys paired with a list of optional values of any length;
* `perm_toList_insert`, `perm_toList_erase`: the entries after an insertion of a new key or a removal.
-/

set_option autoImplicit false
set_option linter.unusedSectionVars false

namespace McpgSdk

/-- An ordered map. -/
abbrev BTreeMap (κ ν : Type) [Ord κ] : Type := Std.ExtTreeMap κ ν compare

namespace OrdMap

section View

variable {κ ν : Type} [DecidableEq κ]

/-- Apply patches in order to a view. -/
def applyAll (f : κ → Option ν) (ps : List (κ × Option ν)) : κ → Option ν :=
  ps.foldl (fun f p => Function.update f p.1 p.2) f

@[simp] theorem applyAll_nil (f : κ → Option ν) : applyAll f [] = f := rfl

@[simp] theorem applyAll_cons (f : κ → Option ν) (p : κ × Option ν) (ps : List (κ × Option ν)) :
    applyAll f (p :: ps) = applyAll (Function.update f p.1 p.2) ps := rfl

theorem applyAll_of_not_mem {k : κ} {ps : List (κ × Option ν)} (h : k ∉ ps.map Prod.fst)
    (f : κ → Option ν) : applyAll f ps k = f k := by
  induction ps generalizing f with
  | nil => rfl
  | cons p ps ih =>
    simp only [List.map_cons, List.mem_cons, not_or] at h
    rw [applyAll_cons, ih h.2, Function.update_of_ne h.1]

theorem applyAll_of_mem {k : κ} {v : Option ν} {ps : List (κ × Option ν)}
    (hn : (ps.map Prod.fst).Nodup) (h : (k, v) ∈ ps) (f : κ → Option ν) :
    applyAll f ps k = v := by
  induction ps generalizing f with
  | nil => cases h
  | cons p ps ih =>
    rw [List.map_cons, List.nodup_cons] at hn
    rcases List.mem_cons.mp h with rfl | h
    · rw [applyAll_cons, applyAll_of_not_mem hn.1, Function.update_self]
    · rw [applyAll_cons, ih hn.2 h]

end View

section Map

variable {κ ν : Type} [Ord κ] [Std.TransOrd κ] [Std.LawfulEqOrd κ]

/-- The contents of a map. -/
def look (m : BTreeMap κ ν) : κ → Option ν := fun k => m[k]?

variable [DecidableEq κ]

theorem getElem?_insert_ite (m : BTreeMap κ ν) (k k' : κ) (v : ν) :
    (m.insert k v)[k']? = if k' = k then some v else m[k']? := by
  rw [Std.ExtTreeMap.getElem?_insert]
  exact if_congr (Std.LawfulEqCmp.compare_eq_iff_eq.trans eq_comm) rfl rfl

theorem getElem?_erase_ite (m : BTreeMap κ ν) (k k' : κ) :
    (m.erase k)[k']? = if k' = k then none else m[k']? := by
  rw [Std.ExtTreeMap.getElem?_erase]
  exact if_congr (Std.LawfulEqCmp.compare_eq_iff_eq.trans eq_comm) rfl rfl

/-- Set or remove one key. -/
def patch (m : BTreeMap κ ν) (k : κ) : Option ν → BTreeMap κ ν
  | some v => m.insert k v
  | none => m.erase k

theorem getElem?_patch (m : BTreeMap κ ν) (k k' : κ) (v : Option ν) :
    (patch m k v)[k']? = if k' = k then v else m[k']? := by
  cases v with
  | some v => exact getElem?_insert_ite m k k' v
  | none => exact getElem?_erase_ite m k k'

theorem look_patch (m : BTreeMap κ ν) (k : κ) (v : Option ν) :
    look (patch m k v) = Function.update (look m) k v := by
  funext k'
  simp only [look, getElem?_patch, Function.update_apply]

/-- Apply patches in order to a map. -/
def patchAll (m : BTreeMap κ ν) (ps : List (κ × Option ν)) : BTreeMap κ ν :=
  ps.foldl (fun m p => patch m p.1 p.2) m

@[simp] theorem patchAll_nil (m : BTreeMap κ ν) : patchAll m [] = m := rfl

@[simp] theorem patchAll_cons (m : BTreeMap κ ν) (p : κ × Option ν) (ps : List (κ × Option ν)) :
    patchAll m (p :: ps) = patchAll (patch m p.1 p.2) ps := rfl

theorem patchAll_append (m : BTreeMap κ ν) (ps qs : List (κ × Option ν)) :
    patchAll m (ps ++ qs) = patchAll (patchAll m ps) qs := List.foldl_append

/-- **Patching a map patches its contents.** -/
theorem look_patchAll (m : BTreeMap κ ν) (ps : List (κ × Option ν)) :
    look (patchAll m ps) = applyAll (look m) ps := by
  induction ps generalizing m with
  | nil => rfl
  | cons p ps ih => rw [patchAll_cons, ih, look_patch, applyAll_cons]

theorem foldl_erase (m : BTreeMap κ ν) (ks : List κ) :
    ks.foldl (fun m k => m.erase k) m = patchAll m (ks.map fun k => (k, none)) := by
  induction ks generalizing m with
  | nil => rfl
  | cons k ks ih => exact ih _

theorem getElem?_foldl_erase (m : BTreeMap κ ν) (ks : List κ) (k : κ) :
    (ks.foldl (fun m k => m.erase k) m)[k]? = if k ∈ ks then none else m[k]? := by
  induction ks generalizing m with
  | nil => simp
  | cons a ks ih =>
    rw [List.foldl_cons, ih, getElem?_erase_ite]
    by_cases hk : k ∈ ks <;> by_cases ha : k = a <;> simp [hk, ha]

/-! ### Sizes -/

theorem size_eq_card (m : BTreeMap κ ν) : m.size = m.keys.toFinset.card := by
  rw [List.toFinset_card_of_nodup m.nodup_keys, Std.ExtTreeMap.length_keys]

theorem size_lt_of_missing {m m' : BTreeMap κ ν}
    (hsub : ∀ (k : κ) (v : ν), m'[k]? = some v → m[k]? = some v) {k : κ} {v : ν} (hk : m[k]? = some v)
    (hnot : m'[k]? ≠ some v) : m'.size < m.size := by
  have hmem : ∀ {m : BTreeMap κ ν} {k : κ}, k ∈ m.keys.toFinset ↔ ∃ v, m[k]? = some v := by
    intro m k
    rw [List.mem_toFinset, Std.ExtTreeMap.mem_keys, Std.ExtTreeMap.mem_iff_isSome_getElem?,
      Option.isSome_iff_exists]
  rw [size_eq_card, size_eq_card]
  refine Finset.card_lt_card (Finset.ssubset_iff_of_subset ?_ |>.mpr ⟨k, hmem.mpr ⟨v, hk⟩, ?_⟩)
  · intro j hj
    obtain ⟨w, hw⟩ := hmem.mp hj
    exact hmem.mpr ⟨w, hsub j w hw⟩
  · intro hk'
    obtain ⟨w, hw⟩ := hmem.mp hk'
    rw [hsub k w hw] at hk
    exact hnot (hk ▸ hw)

/-! ### Disagreement -/

variable [DecidableEq ν]

/-- The keys on which two maps differ. -/
def disagree (a b : BTreeMap κ ν) : Finset κ :=
  (a.keys ++ b.keys).toFinset.filter fun k => a[k]? ≠ b[k]?

theorem mem_disagree {a b : BTreeMap κ ν} {k : κ} : k ∈ disagree a b ↔ a[k]? ≠ b[k]? := by
  simp only [disagree, Finset.mem_filter, List.mem_toFinset, List.mem_append,
    Std.ExtTreeMap.mem_keys, and_iff_right_iff_imp]
  intro h
  by_contra hk
  rw [not_or] at hk
  exact h (by rw [Std.ExtTreeMap.getElem?_eq_none hk.1, Std.ExtTreeMap.getElem?_eq_none hk.2])

theorem disagree_eq_empty {a b : BTreeMap κ ν} : disagree a b = ∅ ↔ a = b := by
  constructor
  · intro h
    refine Std.ExtTreeMap.ext_getElem? fun k => ?_
    by_contra hk
    have := mem_disagree.mpr hk
    rw [h] at this
    exact absurd this (Finset.notMem_empty k)
  · rintro rfl
    exact Finset.eq_empty_of_forall_notMem fun k hk => mem_disagree.mp hk rfl

/-- **Partial repair.** Patches of distinct keys that write what `b` has leave exactly the other
disagreements. -/
theorem disagree_patchAll {a b : BTreeMap κ ν} {ps : List (κ × Option ν)}
    (hn : (ps.map Prod.fst).Nodup) (hb : ∀ p ∈ ps, p.2 = b[p.1]?) :
    disagree (patchAll a ps) b = disagree a b \ (ps.map Prod.fst).toFinset := by
  ext k
  rw [Finset.mem_sdiff, mem_disagree, mem_disagree, List.mem_toFinset]
  have hl : (patchAll a ps)[k]? = applyAll (look a) ps k := congrFun (look_patchAll a ps) k
  rw [hl]
  by_cases hk : k ∈ ps.map Prod.fst
  · obtain ⟨p, hp, rfl⟩ := List.mem_map.mp hk
    rw [applyAll_of_mem hn hp]
    exact iff_of_false (fun h => h (hb p hp)) fun h => h.2 hk
  · rw [applyAll_of_not_mem hk]
    exact ⟨fun h => ⟨h, hk⟩, fun h => h.1⟩

end Map

/-! ### Entries -/

section Entries

variable {κ ν : Type} [Ord κ] [Std.TransOrd κ] [Std.LawfulEqOrd κ]

theorem nodup_toList (m : BTreeMap κ ν) : m.toList.Nodup := by
  have h : (m.toList.map Prod.fst).Nodup := by
    rw [Std.ExtTreeMap.map_fst_toList_eq_keys]
    exact m.nodup_keys
  exact h.of_map

theorem ofList_toList (m : BTreeMap κ ν) : (.ofList m.toList : BTreeMap κ ν) = m := by
  refine Std.ExtTreeMap.ext_getElem? fun k => ?_
  cases h : m[k]? with
  | some v =>
    exact Std.ExtTreeMap.getElem?_ofList_of_mem Std.ReflCmp.compare_self m.distinct_keys_toList
      (Std.ExtTreeMap.mem_toList_iff_getElem?_eq_some.mpr h)
  | none =>
    classical
    refine Std.ExtTreeMap.getElem?_eq_none ?_
    rw [Std.ExtTreeMap.mem_ofList, Std.ExtTreeMap.map_fst_toList_eq_keys, List.contains_iff_mem,
      Std.ExtTreeMap.mem_keys, Std.ExtTreeMap.mem_iff_isSome_getElem?, h]
    exact Bool.false_ne_true

variable [DecidableEq κ]

theorem mem_of_getElem?_ofList {l : List (κ × ν)} {k : κ} {v : ν}
    (h : (.ofList l : BTreeMap κ ν)[k]? = some v) : (k, v) ∈ l := by
  induction l using List.reverseRecOn with
  | nil => simp at h
  | append_singleton l p ih =>
    rw [Std.ExtTreeMap.ofList_eq_foldl, List.foldl_append, List.foldl_cons, List.foldl_nil,
      ← Std.ExtTreeMap.ofList_eq_foldl, getElem?_insert_ite] at h
    split_ifs at h with hk
    · obtain rfl := Option.some.inj h
      rw [hk]
      exact List.mem_append_right l List.mem_cons_self
    · exact List.mem_append_left _ (ih h)

/-- Keys with the values they are given, where they are given one. -/
def valued (ks : List κ) (vs : List (Option ν)) : List (κ × ν) :=
  (ks.zip vs).filterMap fun kv => kv.2.map fun v => (kv.1, v)

theorem mem_zip_iff {μ : Type} {ks : List κ} (hn : ks.Nodup) {vs : List μ} {i : ℕ} {k : κ}
    (hk : ks[i]? = some k) (v : μ) : (k, v) ∈ ks.zip vs ↔ vs[i]? = some v := by
  rw [List.mem_iff_getElem?]
  constructor
  · rintro ⟨j, hj⟩
    obtain ⟨hkj, hvj⟩ := List.getElem?_zip_eq_some.mp hj
    have hlen : i < ks.length := (List.getElem?_eq_some_iff.mp hk).1
    rwa [(List.getElem?_inj hlen hn).mp (hk.trans hkj.symm)]
  · intro hv
    exact ⟨i, List.getElem?_zip_eq_some.mpr ⟨hk, hv⟩⟩

theorem mem_valued {ks : List κ} {vs : List (Option ν)} {k : κ} {v : ν} :
    (k, v) ∈ valued ks vs ↔ (k, some v) ∈ ks.zip vs := by
  rw [valued, List.mem_filterMap]
  constructor
  · rintro ⟨⟨k', o⟩, hin, hval⟩
    obtain ⟨v', rfl, heq⟩ := Option.map_eq_some_iff.mp hval
    obtain ⟨rfl, rfl⟩ := Prod.mk.inj heq
    exact hin
  · intro hin
    exact ⟨(k, some v), hin, rfl⟩

theorem distinct_valued {ks : List κ} (hn : ks.Nodup) (vs : List (Option ν)) :
    (valued ks vs).Pairwise fun a b => ¬ compare a.1 b.1 = .eq := by
  have hzip : ((ks.zip vs).map Prod.fst).Nodup := by
    refine hn.sublist ?_
    rw [List.zip_eq_zip_take_min, List.map_fst_zip (by simp)]
    exact List.take_sublist _ _
  rw [List.Nodup, List.pairwise_map] at hzip
  rw [valued, List.pairwise_filterMap]
  refine hzip.imp ?_
  rintro ⟨k₁, o₁⟩ ⟨k₂, o₂⟩ hne ⟨a, v⟩ ha ⟨b, w⟩ hb heq
  obtain ⟨v', -, hv⟩ := Option.map_eq_some_iff.mp ha
  obtain ⟨w', -, hw⟩ := Option.map_eq_some_iff.mp hb
  obtain ⟨rfl, -⟩ := Prod.mk.inj hv
  obtain ⟨rfl, -⟩ := Prod.mk.inj hw
  exact hne (Std.LawfulEqCmp.compare_eq_iff_eq.mp heq)

/-- Distinct keys paired with optional values: what is found under the key at a position is the value
there, however many values there are. -/
theorem getElem?_ofList_zip {ks : List κ} (hn : ks.Nodup) (vs : List (Option ν)) {i : ℕ} {k : κ}
    (hk : ks[i]? = some k) : (.ofList (valued ks vs) : BTreeMap κ ν)[k]? = vs[i]?.join := by
  refine Option.ext fun v => ?_
  rw [Option.join_eq_some_iff, ← mem_zip_iff hn hk, ← mem_valued]
  constructor
  · intro h
    exact mem_of_getElem?_ofList h
  · intro h
    exact Std.ExtTreeMap.getElem?_ofList_of_mem Std.ReflCmp.compare_self (distinct_valued hn vs) h

theorem perm_toList_insert {m : BTreeMap κ ν} {k : κ} {v : ν} (h : m[k]? = none) :
    (m.insert k v).toList.Perm ((k, v) :: m.toList) := by
  have hk : (k, v) ∉ m.toList := fun hm => by
    rw [Std.ExtTreeMap.mem_toList_iff_getElem?_eq_some, h] at hm
    cases hm
  rw [List.perm_ext_iff_of_nodup (nodup_toList _) (List.nodup_cons.mpr ⟨hk, nodup_toList m⟩)]
  rintro ⟨k', v'⟩
  rw [List.mem_cons, Std.ExtTreeMap.mem_toList_iff_getElem?_eq_some,
    Std.ExtTreeMap.mem_toList_iff_getElem?_eq_some, getElem?_insert_ite]
  by_cases hk' : k' = k
  · subst hk'
    simp [h, eq_comm]
  · simp [hk']

theorem perm_toList_erase {m : BTreeMap κ ν} {k : κ} {v : ν} (h : m[k]? = some v) :
    m.toList.Perm ((k, v) :: (m.erase k).toList) := by
  have hk : (k, v) ∉ (m.erase k).toList := fun hm => by
    rw [Std.ExtTreeMap.mem_toList_iff_getElem?_eq_some, getElem?_erase_ite] at hm
    simp at hm
  rw [List.perm_ext_iff_of_nodup (nodup_toList m) (List.nodup_cons.mpr ⟨hk, nodup_toList _⟩)]
  rintro ⟨k', v'⟩
  rw [List.mem_cons, Std.ExtTreeMap.mem_toList_iff_getElem?_eq_some,
    Std.ExtTreeMap.mem_toList_iff_getElem?_eq_some, getElem?_erase_ite]
  by_cases hk' : k' = k
  · subst hk'
    simp [h, eq_comm]
  · simp [hk']

end Entries

end OrdMap

end McpgSdk
