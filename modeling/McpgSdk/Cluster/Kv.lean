import McpgSdk.Cluster.Wire

/-!
# The key-value store of a coordinator

A coordinator offers a shared store, and may offer stores of other names. The trait's methods on a
named store default to the shared ones. The shims the macro generates always call the methods on a
named store, whether the host names one or not.

* `KvBackend`: which shared methods a backend overrides, with the trait's defaults for the others;
* `collectPages`, `kvListPrefix`, `kvListPrefixIn`: listing by pages;
* `clusterKvGet`, ..., `clusterKvIncr`: the shims, and `kvThrough`: a call through them;
* `kvShared`: what the shared method of the same name returns.
-/

set_option autoImplicit false

namespace McpgSdk

namespace Cluster

/-- The cluster crate's errors, with the one for a missing store. -/
structure KvErrors (E : Type) extends ClusterErrors E where
  unsupported : String → E

/-- One page of a listing, and the cursor after it. -/
structure KvPage (V : Type) where
  entries : List (String × V)
  next : Option String

/-- A method of a backend with state `σ`. -/
abbrev Method (σ E α : Type) : Type := σ → Outcome E α × σ

/-- The shared methods a backend overrides; `V` is the type of the store's entries. -/
structure KvBackend (σ E V : Type) where
  get : Option (String → Method σ E (Option V)) := none
  put : Option (String → List UInt8 → Option ℕ → Method σ E Unit) := none
  putIfAbsent : Option (String → List UInt8 → Option ℕ → Method σ E Bool) := none
  delete : Option (String → Method σ E Bool) := none
  listPage : Option (String → Option String → ℕ → Method σ E (KvPage V)) := none
  listPrefix : Option (String → ℕ → Method σ E (List (String × V))) := none
  expire : Option (String → Option ℕ → Method σ E Bool) := none
  incr : Option (String → ℤ → Option ℕ → Method σ E ℤ) := none
  incrFloor : Option (String → ℤ → ℤ → Option ℕ → Method σ E ℤ) := none

/-! ## The trait's methods -/

/-- `LIST_PAGE_SIZE` of the cluster crate is a parameter, as its errors are. -/
structure KvEnv (E : Type) where
  errors : KvErrors E
  listPageSize : ℕ

section Trait

variable {σ E V α : Type} (env : KvEnv E)

/-- `kv_unsupported`. -/
def kvUnsupported : E := env.errors.unsupported "coordinator does not provide a key_value_store"

/-- The body of a shared method nobody overrides. -/
def unsupportedMethod : Method σ E α := fun s => (.returned (.error (kvUnsupported env)), s)

namespace KvBackend

variable (b : KvBackend σ E V)

def kvGet (key : String) : Method σ E (Option V) :=
  b.get.elim (unsupportedMethod env) fun f => f key

def kvPut (key : String) (value : List UInt8) (ttlMs : Option ℕ) : Method σ E Unit :=
  b.put.elim (unsupportedMethod env) fun f => f key value ttlMs

def kvPutIfAbsent (key : String) (value : List UInt8) (ttlMs : Option ℕ) : Method σ E Bool :=
  b.putIfAbsent.elim (unsupportedMethod env) fun f => f key value ttlMs

def kvDelete (key : String) : Method σ E Bool :=
  b.delete.elim (unsupportedMethod env) fun f => f key

def kvListPage (start : String) (cursor : Option String) (limit : ℕ) : Method σ E (KvPage V) :=
  b.listPage.elim (unsupportedMethod env) fun f => f start cursor limit

def kvExpire (key : String) (ttlMs : Option ℕ) : Method σ E Bool :=
  b.expire.elim (unsupportedMethod env) fun f => f key ttlMs

def kvIncr (key : String) (delta : ℤ) (ttlMs : Option ℕ) : Method σ E ℤ :=
  b.incr.elim (unsupportedMethod env) fun f => f key delta ttlMs

def kvIncrFloor (key : String) (delta floor : ℤ) (ttlMs : Option ℕ) : Method σ E ℤ :=
  b.incrFloor.elim (unsupportedMethod env) fun f => f key delta floor ttlMs

end KvBackend

/-- The loop of `collect_pages`, `none` when it is still running after `fuel` pages. -/
def collectLoop (limit : ℕ) (nextPage : Option String → ℕ → Method σ E (KvPage V)) :
    ℕ → List (String × V) → Option String → σ → Option (Outcome E (List (String × V)) × σ)
  | 0, _, _, _ => none
  | fuel + 1, out, cursor, s =>
    if out.length < limit then
      let room := limit - out.length
      match nextPage cursor (min room env.listPageSize) s with
      | (.panicked, s) => some (.panicked, s)
      | (.returned (.error e), s) => some (.returned (.error e), s)
      | (.returned (.ok page), s) =>
        let out := out ++ page.entries.take room
        match page.next with
        | none => some (.returned (.ok out), s)
        -- A backend that hands back the cursor it got would loop.
        | some next =>
          if cursor = some next then some (.returned (.ok out), s)
          else collectLoop limit nextPage fuel out (some next) s
    else some (.returned (.ok out), s)

/-- `collect_pages`. -/
def collectPages (fuel limit : ℕ) (nextPage : Option String → ℕ → Method σ E (KvPage V)) (s : σ) :
    Option (Outcome E (List (String × V)) × σ) :=
  collectLoop env limit nextPage fuel [] none s

namespace KvBackend

variable (b : KvBackend σ E V)

/-- `kv_list_prefix`: by default the pages of `kv_list_page`. -/
def kvListPrefix (fuel : ℕ) (start : String) (limit : ℕ) (s : σ) :
    Option (Outcome E (List (String × V)) × σ) :=
  match b.listPrefix with
  | some f => some (f start limit s)
  | none => collectPages env fuel limit (b.kvListPage env start) s

/-! The methods on a named store, all of them defaults. -/

def kvGetIn (_store : Option String) (key : String) : Method σ E (Option V) := b.kvGet env key

def kvPutIn (_store : Option String) (key : String) (value : List UInt8) (ttlMs : Option ℕ) :
    Method σ E Unit :=
  b.kvPut env key value ttlMs

def kvPutIfAbsentIn (_store : Option String) (key : String) (value : List UInt8)
    (ttlMs : Option ℕ) : Method σ E Bool :=
  b.kvPutIfAbsent env key value ttlMs

def kvDeleteIn (_store : Option String) (key : String) : Method σ E Bool := b.kvDelete env key

def kvListPageIn (_store : Option String) (start : String) (cursor : Option String) (limit : ℕ) :
    Method σ E (KvPage V) :=
  b.kvListPage env start cursor limit

/-- `kv_list_prefix_in` does not call `kv_list_prefix`: it lists by pages itself. -/
def kvListPrefixIn (fuel : ℕ) (store : Option String) (start : String) (limit : ℕ) (s : σ) :
    Option (Outcome E (List (String × V)) × σ) :=
  collectPages env fuel limit (b.kvListPageIn env store start) s

def kvExpireIn (_store : Option String) (key : String) (ttlMs : Option ℕ) : Method σ E Bool :=
  b.kvExpire env key ttlMs

def kvIncrIn (_store : Option String) (key : String) (delta : ℤ) (ttlMs : Option ℕ) :
    Method σ E ℤ :=
  b.kvIncr env key delta ttlMs

def kvIncrFloorIn (_store : Option String) (key : String) (delta floor : ℤ) (ttlMs : Option ℕ) :
    Method σ E ℤ :=
  b.kvIncrFloor env key delta floor ttlMs

end KvBackend

end Trait

/-! ## The shims -/

/-- What the shims are sent: the argument records of the cluster crate. -/
structure KvKeyArgs where
  store : Option String
  key : String
  base64 : Bool

structure KvPutArgs where
  store : Option String
  key : String
  value : List UInt8
  ttlMs : Option ℕ

structure KvListPrefixArgs where
  store : Option String
  start : String
  cursor : Option String
  limit : UInt64
  page : Bool
  base64 : Bool

structure KvExpireArgs where
  store : Option String
  key : String
  ttlMs : Option ℕ

structure KvIncrArgs where
  store : Option String
  key : String
  delta : ℤ
  floor : Option ℤ
  ttlMs : Option ℕ

/-- The records of the cluster crate as the shims answer with them. -/
structure KvWire (V : Type) where
  /-- `KvEntryWire::from_entry`. -/
  entry : V → Bool → Json
  /-- `KvPageWire::from_page`. -/
  page : KvPage V → Bool → Json
  /-- `KvListEntryWire`. -/
  listEntry : String → Json → Json

section Shims

variable {σ E V α : Type} (env : KvEnv E) (wire : KvWire V) (b : KvBackend σ E V)

/-- What a shim does with its argument text: a record serde could not read, `.error` with serde's
reason, is an invalid reference; else the answer is the envelope of what the call returns. -/
def kvShim {args : Type} (op : String) (call : args → Method σ E α) (okValue : args → α → Json) :
    Except String args → σ → Slot × σ
  | .error reason, s =>
    (respondResult env.errors.toClusterErrors unitValue
      (.error (env.errors.invalidReference ("malformed " ++ op ++ " args: " ++ reason))), s)
  | .ok a, s =>
    let (outcome, s) := call a s
    (catchPanic (respondResult env.errors.toClusterErrors (okValue a)) outcome, s)

/-- An optional entry on the wire. -/
def optionValue (value : V → Json) (v : Option V) : Json := (v.map value).getD .null

/-- An `i64` as serde writes it. -/
def intValue (i : ℤ) : Json := .num (if 0 ≤ i then .posInt i.toNat else .negInt i)

/-- Listed pairs on the wire. -/
def pairsValue (base64 : Bool) (pairs : List (String × V)) : Json :=
  .arr (pairs.map fun kv => wire.listEntry kv.1 (wire.entry kv.2 base64))

/-- `__mcpg_cluster_kv_get`. -/
def clusterKvGet : Except String KvKeyArgs → σ → Slot × σ :=
  kvShim env "kv_get" (fun a => b.kvGetIn env a.store a.key)
    fun a => optionValue fun v => wire.entry v a.base64

/-- `__mcpg_cluster_kv_put`. -/
def clusterKvPut : Except String KvPutArgs → σ → Slot × σ :=
  kvShim env "kv_put" (fun a => b.kvPutIn env a.store a.key a.value a.ttlMs) fun _ => unitValue

/-- `__mcpg_cluster_kv_put_if_absent`. -/
def clusterKvPutIfAbsent : Except String KvPutArgs → σ → Slot × σ :=
  kvShim env "kv_put_if_absent" (fun a => b.kvPutIfAbsentIn env a.store a.key a.value a.ttlMs)
    fun _ => Json.bool

/-- `__mcpg_cluster_kv_delete`. -/
def clusterKvDelete : Except String KvKeyArgs → σ → Slot × σ :=
  kvShim env "kv_delete" (fun a => b.kvDeleteIn env a.store a.key) fun _ => Json.bool

/-- `__mcpg_cluster_kv_list_prefix`: one page, or the pages up to the limit. -/
def clusterKvListPrefix (fuel : ℕ) (args : Except String KvListPrefixArgs) (s : σ) :
    Option (Slot × σ) :=
  match args with
  | .error reason =>
    some (respondResult env.errors.toClusterErrors unitValue
      (.error (env.errors.invalidReference ("malformed kv_list_prefix args: " ++ reason))), s)
  | .ok a =>
    if a.page then
      let (outcome, s) := b.kvListPageIn env a.store a.start a.cursor a.limit.toNat s
      some (catchPanic (respondResult env.errors.toClusterErrors fun page => wire.page page a.base64)
        outcome, s)
    else
      (b.kvListPrefixIn env fuel a.store a.start a.limit.toNat s).map fun (outcome, s) =>
        (catchPanic (respondResult env.errors.toClusterErrors (pairsValue wire a.base64)) outcome, s)

/-- `__mcpg_cluster_kv_expire`. -/
def clusterKvExpire : Except String KvExpireArgs → σ → Slot × σ :=
  kvShim env "kv_expire" (fun a => b.kvExpireIn env a.store a.key a.ttlMs) fun _ => Json.bool

/-- `__mcpg_cluster_kv_incr`. -/
def clusterKvIncr : Except String KvIncrArgs → σ → Slot × σ :=
  kvShim env "kv_incr"
    (fun a =>
      match a.floor with
      | some floor => b.kvIncrFloorIn env a.store a.key a.delta floor a.ttlMs
      | none => b.kvIncrIn env a.store a.key a.delta a.ttlMs)
    fun _ => intValue

end Shims

/-! ## Calls with a store name -/

/-- A call on the store. -/
inductive KvCall
  | get (key : String)
  | put (key : String) (value : List UInt8) (ttlMs : Option ℕ)
  | putIfAbsent (key : String) (value : List UInt8) (ttlMs : Option ℕ)
  | delete (key : String)
  | listPage (start : String) (cursor : Option String) (limit : UInt64)
  | listPrefix (start : String) (limit : UInt64)
  | expire (key : String) (ttlMs : Option ℕ)
  | incr (key : String) (delta : ℤ) (ttlMs : Option ℕ)
  | incrFloor (key : String) (delta floor : ℤ) (ttlMs : Option ℕ)

section Calls

variable {σ E V α : Type} (env : KvEnv E) (wire : KvWire V) (b : KvBackend σ E V)

/-- The answer to a call through the shim, `none` while a listing still runs. -/
def kvThrough (store : Option String) (base64 : Bool) (call : KvCall) (s : σ) (fuel : ℕ) :
    Option Slot :=
  match call with
  | .get key => some (clusterKvGet env wire b (.ok ⟨store, key, base64⟩) s).1
  | .put key value ttlMs => some (clusterKvPut env b (.ok ⟨store, key, value, ttlMs⟩) s).1
  | .putIfAbsent key value ttlMs =>
    some (clusterKvPutIfAbsent env b (.ok ⟨store, key, value, ttlMs⟩) s).1
  | .delete key => some (clusterKvDelete env b (.ok ⟨store, key, base64⟩) s).1
  | .listPage start cursor limit =>
    (clusterKvListPrefix env wire b fuel (.ok ⟨store, start, cursor, limit, true, base64⟩) s).map
      Prod.fst
  | .listPrefix start limit =>
    (clusterKvListPrefix env wire b fuel (.ok ⟨store, start, none, limit, false, base64⟩) s).map
      Prod.fst
  | .expire key ttlMs => some (clusterKvExpire env b (.ok ⟨store, key, ttlMs⟩) s).1
  | .incr key delta ttlMs => some (clusterKvIncr env b (.ok ⟨store, key, delta, none, ttlMs⟩) s).1
  | .incrFloor key delta floor ttlMs =>
    some (clusterKvIncr env b (.ok ⟨store, key, delta, some floor, ttlMs⟩) s).1

/-- The envelope of what a method returned. -/
def envelope (okValue : α → Json) (result : Outcome E α × σ) : Slot :=
  catchPanic (respondResult env.errors.toClusterErrors okValue) result.1

/-- What the backend's shared method of the same name returns, in its envelope. -/
def kvShared (base64 : Bool) (call : KvCall) (s : σ) (fuel : ℕ) : Option Slot :=
  match call with
  | .get key =>
    some (envelope env (optionValue fun v => wire.entry v base64) (b.kvGet env key s))
  | .put key value ttlMs => some (envelope env unitValue (b.kvPut env key value ttlMs s))
  | .putIfAbsent key value ttlMs =>
    some (envelope env Json.bool (b.kvPutIfAbsent env key value ttlMs s))
  | .delete key => some (envelope env Json.bool (b.kvDelete env key s))
  | .listPage start cursor limit =>
    some (envelope env (fun page => wire.page page base64)
      (b.kvListPage env start cursor limit.toNat s))
  | .listPrefix start limit =>
    (b.kvListPrefix env fuel start limit.toNat s).map (envelope env (pairsValue wire base64))
  | .expire key ttlMs => some (envelope env Json.bool (b.kvExpire env key ttlMs s))
  | .incr key delta ttlMs => some (envelope env intValue (b.kvIncr env key delta ttlMs s))
  | .incrFloor key delta floor ttlMs =>
    some (envelope env intValue (b.kvIncrFloor env key delta floor ttlMs s))

/-- A computation returns `answer`, given enough fuel. -/
def Returns (computation : ℕ → Option α) (answer : α) : Prop := ∃ fuel, computation fuel = some answer

variable {env wire b}

theorem collectLoop_mono {limit : ℕ} {nextPage : Option String → ℕ → Method σ E (KvPage V)}
    {fuel more : ℕ} (hle : fuel ≤ more) {out : List (String × V)} {cursor : Option String} {s : σ}
    {r : Outcome E (List (String × V)) × σ}
    (h : collectLoop env limit nextPage fuel out cursor s = some r) :
    collectLoop env limit nextPage more out cursor s = some r := by
  induction fuel generalizing more out cursor s with
  | zero => cases h
  | succ fuel ih =>
    obtain ⟨more, rfl⟩ : ∃ n, more = n + 1 := ⟨more - 1, by omega⟩
    unfold collectLoop at h ⊢
    by_cases hlen : out.length < limit
    · rw [if_pos hlen] at h ⊢
      simp only at h ⊢
      generalize nextPage cursor (min (limit - out.length) env.listPageSize) s = answer at h ⊢
      obtain ⟨outcome, s'⟩ := answer
      cases outcome with
      | panicked => exact h
      | returned result =>
        cases result with
        | error e => exact h
        | ok page =>
          simp only at h ⊢
          cases hnext : page.next with
          | none =>
            rw [hnext] at h
            exact h
          | some next =>
            rw [hnext] at h
            simp only at h ⊢
            by_cases hcursor : cursor = some next
            · rw [if_pos hcursor] at h ⊢
              exact h
            · rw [if_neg hcursor] at h ⊢
              exact ih (by omega) h
    · rw [if_neg hlen] at h ⊢
      exact h

end Calls

/-- Cluster errors with their text, for evaluating on concrete inputs. -/
inductive StoreError
  | internal (reason : String)
  | invalidReference (message : String)
  | unsupported (reason : String)
  deriving DecidableEq, Repr

/-- Their JSON, tagged with the variant, and pages of 256 entries. -/
def plainKvEnv : KvEnv StoreError where
  listPageSize := 256
  errors :=
    { internal := .internal
      invalidReference := .invalidReference
      unsupported := .unsupported
      toValue := fun e =>
        match e with
        | .internal reason => .obj [("error", .str "internal"), ("reason", .str reason)]
        | .invalidReference message =>
          .obj [("error", .str "invalid_reference"), ("message", .str message)]
        | .unsupported reason => .obj [("error", .str "unsupported"), ("reason", .str reason)]
      fromValue := fun _ => none }

/-- Entries that are numbers. -/
def plainKvWire : KvWire ℕ where
  entry v _ := .num (.posInt v)
  page page _ := .arr (page.entries.map fun kv => .str kv.1)
  listEntry key entry := .obj [("entry", entry), ("key", .str key)]

end Cluster

end McpgSdk
