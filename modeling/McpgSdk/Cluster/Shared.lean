import McpgSdk.Cluster.Pages

/-!
# Named stores use the shared store

A call through the shims reaches the shared method of its name, except for `list_prefix`: it is always
the pages of `kv_list_page`, and a `kv_list_prefix` of the backend's own is never called.

* `ListsItsPages`: a backend's own listing is what its pager hands out, cut at the limit;
* **`kv_shared_iff`**: when a call returns what the shared method returns;
* `overridden_list_prefix_unused`: a backend that lists on its own and has no pages.
-/

set_option autoImplicit false

namespace McpgSdk

namespace Cluster

section Shared

variable {σ E V : Type} (env : KvEnv E) (wire : KvWire V) (b : KvBackend σ E V)

/-- The pager of the prefix a listing is of hands out a list of entries in order, or a failure. -/
def KeepsOrder (s : σ) : KvCall → Prop
  | .listPrefix start _ =>
    ∃ entries failure, Enumerates (b.kvListPage env start) env.listPageSize s none entries failure
  | _ => True

/-- The call is no `list_prefix`, or the backend does not override it, or the backend's own method
answers with the entries its pager hands out, cut at the limit, or with the failure they come to. -/
def ListsItsPages (base64 : Bool) (s : σ) : KvCall → Prop
  | .listPrefix start limit => ∀ own, b.listPrefix = some own → ∃ entries failure,
      Enumerates (b.kvListPage env start) env.listPageSize s none entries failure ∧
        envelope env (pairsValue wire base64) (own start limit.toNat s) =
          envelope env (pairsValue wire base64) (.returned (listing limit.toNat [] entries failure), s)
  | _ => True

variable {env wire b}

theorem returns_unique {base64 : Bool} {limit : ℕ}
    {nextPage : Option String → ℕ → Method σ E (KvPage V)} {s : σ} {x y : Slot}
    (hx : Returns (fun fuel => (collectPages env fuel limit nextPage s).map
      (envelope env (pairsValue wire base64))) x)
    (hy : Returns (fun fuel => (collectPages env fuel limit nextPage s).map
      (envelope env (pairsValue wire base64))) y) : x = y := by
  obtain ⟨n, hx⟩ := hx
  obtain ⟨m, hy⟩ := hy
  obtain ⟨r, hr, rfl⟩ := Option.map_eq_some_iff.mp hx
  obtain ⟨r', hr', rfl⟩ := Option.map_eq_some_iff.mp hy
  have h := collectLoop_mono (Nat.le_max_left n m) hr
  have h' := collectLoop_mono (Nat.le_max_right n m) hr'
  rw [Option.some.inj (h.symm.trans h')]

theorem kvThrough_listPrefix (store : Option String) (base64 : Bool) (start : String)
    (limit : UInt64) (s : σ) :
    kvThrough env wire b store base64 (.listPrefix start limit) s = fun fuel =>
      (collectPages env fuel limit.toNat (b.kvListPage env start) s).map
        (envelope env (pairsValue wire base64)) := by
  funext fuel
  simp only [kvThrough, clusterKvListPrefix, KvBackend.kvListPrefixIn, Bool.false_eq_true, if_false,
    Option.map_map]
  rfl

theorem returns_listing (hsize : 0 < env.listPageSize) (store : Option String) (base64 : Bool)
    (start : String) (limit : UInt64) (s : σ) {entries : List (String × V)} {failure : Option E}
    (h : Enumerates (b.kvListPage env start) env.listPageSize s none entries failure) :
    Returns (kvThrough env wire b store base64 (.listPrefix start limit) s)
      (envelope env (pairsValue wire base64)
        (.returned (listing limit.toNat [] entries failure), s)) := by
  obtain ⟨fuel, s', hloop⟩ := collectLoop_enumerates hsize h [] (Nat.zero_le limit.toNat)
  refine ⟨fuel, ?_⟩
  rw [kvThrough_listPrefix]
  exact congrArg (Option.map _) hloop

/-- The same answers, and the same listings that never end. -/
def SameAnswers (env : KvEnv E) (wire : KvWire V) (b : KvBackend σ E V) (store : Option String)
    (base64 : Bool) (call : KvCall) (s : σ) : Prop :=
  ∀ answer, Returns (kvThrough env wire b store base64 call s) answer ↔
    Returns (kvShared env wire b base64 call s) answer

/-- An own listing is answered alike only by the answer of the pages. -/
theorem sameAnswers_own {store : Option String} {base64 : Bool} {start : String} {limit : UInt64}
    {s : σ} {own : String → ℕ → Method σ E (List (String × V))} (hown : b.listPrefix = some own) :
    SameAnswers env wire b store base64 (.listPrefix start limit) s ↔
      Returns (kvThrough env wire b store base64 (.listPrefix start limit) s)
        (envelope env (pairsValue wire base64) (own start limit.toNat s)) := by
  unfold SameAnswers kvShared KvBackend.kvListPrefix
  rw [hown]
  constructor
  · exact fun h => (h _).mpr ⟨0, rfl⟩
  · intro hpages answer
    constructor
    · intro hanswer
      rw [kvThrough_listPrefix] at hpages hanswer
      exact ⟨0, congrArg some (returns_unique hpages hanswer)⟩
    · rintro ⟨_, hanswer⟩
      rwa [← Option.some.inj hanswer]

/-- **When a call with a store name uses the shared store.** For every backend that keeps the defaults
for named stores, every store name and every call: if the backend lists its pages, the call through the
shim returns what the shared method of the same name returns; and only then, when its pager hands out
its entries in order. -/
theorem kv_shared_iff (env : KvEnv E) (hsize : 0 < env.listPageSize) (wire : KvWire V)
    (b : KvBackend σ E V) (store : Option String) (base64 : Bool) (call : KvCall) (s : σ) :
    (ListsItsPages env wire b base64 s call → SameAnswers env wire b store base64 call s) ∧
      (KeepsOrder env b s call → SameAnswers env wire b store base64 call s →
        ListsItsPages env wire b base64 s call) := by
  cases call with
  | listPrefix start limit =>
    cases hown : b.listPrefix with
    | none =>
      refine ⟨fun _ answer => ?_, fun _ _ own heq => ?_⟩
      · rw [kvThrough_listPrefix]
        unfold kvShared KvBackend.kvListPrefix
        rw [hown]
      · cases hown.symm.trans heq
    | some own =>
      rw [sameAnswers_own hown]
      constructor
      · intro h
        obtain ⟨entries, failure, henum, hsame⟩ := h own hown
        rw [hsame]
        exact returns_listing hsize store base64 start limit s henum
      · rintro ⟨entries, failure, henum⟩ h own' heq
        obtain rfl := Option.some.inj (hown.symm.trans heq)
        have hpages : Returns (kvThrough env wire b store base64 (.listPrefix start limit) s) _ :=
          returns_listing hsize store base64 start limit s henum
        rw [kvThrough_listPrefix] at h hpages
        exact ⟨entries, failure, henum, returns_unique h hpages⟩
  | _ => exact ⟨fun _ _ => Iff.rfl, fun _ _ => trivial⟩

end Shared

/-- A backend that lists on its own what its three pages hand out. -/
def listsThreePages : KvBackend Unit StoreError ℕ where
  listPage := some fun _ => threePages
  listPrefix := some fun _ limit s =>
    (.returned (.ok ([("a", 1), ("b", 2), ("c", 3)].take limit)), s)

theorem kv_shared_iff_threePages : 0 < plainKvEnv.listPageSize ∧
    SameAnswers plainKvEnv plainKvWire listsThreePages (some "sessions") false
      (.listPrefix "" 2) () := by
  refine ⟨by decide, (kv_shared_iff plainKvEnv (by decide) plainKvWire listsThreePages _ _ _ ()).1 ?_⟩
  rintro own hown
  cases hown
  exact ⟨_, none, threePages_enumerates _, rfl⟩

/-- A backend that lists a prefix on its own and knows no pages. -/
def listsOnItsOwn : KvBackend Unit StoreError ℕ where
  listPrefix := some fun _ _ s => (.returned (.ok [("a", 1)]), s)

/-- **A backend's own `kv_list_prefix` is not used**: the call is answered with the error of the pages
it does not have. -/
theorem overridden_list_prefix_unused :
    ¬ ∀ (σ E V : Type) (env : KvEnv E) (wire : KvWire V) (b : KvBackend σ E V) (store : Option String)
      (base64 : Bool) (call : KvCall) (s : σ) (answer : Slot),
      Returns (kvThrough env wire b store base64 call s) answer ↔
        Returns (kvShared env wire b base64 call s) answer := by
  intro h
  have hsame := h Unit StoreError ℕ plainKvEnv plainKvWire listsOnItsOwn (some "sessions") false
    (.listPrefix "" 10) () (some (.obj [("err", .obj [("error", .str "unsupported"),
      ("reason", .str "coordinator does not provide a key_value_store")])]))
  obtain ⟨_, hshared⟩ := hsame.mp ⟨1, rfl⟩
  simp [kvShared, KvBackend.kvListPrefix, listsOnItsOwn, envelope, catchPanic, respondResult] at hshared

end Cluster

end McpgSdk
