import McpgSdk.Protocol

/-!
# The inventory: the diff engine of one inventory watch

An inventory compares each full listing of a store with the listing the host has confirmed, and
reports every object that was created, modified or deleted. The confirmed listing moves only on the
host's acknowledgements.

* `ObjectEntry.digest`, `InventoryOptions.validate`, `Cursor`: the data;
* `Inventory.new`, `Inventory.poll`, `Inventory.acknowledged`, `Inventory.hasRoom`: the operations.

`poll` reads the clock once. Its last part, `emitAll`, returns with every event the change it
reports (`Emitted`), since the event's own text carries the digest only inside its hash.
-/

set_option autoImplicit false

namespace McpgSdk

/-- Key to digest. -/
abbrev Digests : Type := BTreeMap String String

/-- One object a store lists. -/
structure ObjectEntry where
  key : String
  size : Option ℕ := none
  modifiedAtMs : Option ℤ := none
  etag : Option String := none
  version : Option String := none
  deriving DecidableEq, Repr

/-- A digest of what the store reports about the object. -/
def ObjectEntry.digest (X : Externs) (e : ObjectEntry) : String :=
  X.blake3Hex 12 (hashInput [(e.size.map toString).getD "", (e.modifiedAtMs.map toString).getD "",
    e.etag.getD "", e.version.getD ""])

/-- What a change did to its object. -/
inductive ObjectOp
  | created
  | modified
  | deleted
  deriving DecidableEq, Repr

/-- The operation as serde writes it. -/
def ObjectOp.name : ObjectOp → String
  | created => "created"
  | modified => "modified"
  | deleted => "deleted"

/-- Which objects the first listing of a fresh start reports. -/
inductive InventoryStart
  | now
  | existing
  deriving DecidableEq, Repr

/-- How an inventory watch runs. -/
structure InventoryOptions where
  store : String
  location : String
  interval : Nanos
  start : InventoryStart
  snapshotBytes : ℕ
  maxInFlight : ℕ
  ackTimeout : Nanos
  deriving DecidableEq, Repr

/-- Shortest interval between two listings. -/
def minInterval : Nanos := millis 250

/-- Largest snapshot an event may carry. -/
def maxSnapshotBytes : ℕ := 192 * 1024

/-- Check the bounds a spec may set. -/
def InventoryOptions.validate (o : InventoryOptions) : Except String Unit :=
  if o.interval < minInterval then .error "interval_ms must be at least 250"
  else if o.snapshotBytes > maxSnapshotBytes then
    .error "snapshot_bytes must be at most 196608"
  else if ¬ (1 ≤ o.maxInFlight ∧ o.maxInFlight ≤ 1000) then
    .error "max_in_flight must be 1 to 1000"
  else if o.ackTimeout = 0 then .error "ack_timeout_ms must be greater than 0"
  else .ok ()

/-! ## Positions -/

/-- The version every position is written with. -/
def cursorVersion : ℕ := 1

/-- The position after a change: its sequence number, and on the last change of a poll the
confirmed listing it leads to. -/
structure Cursor where
  v : ℕ
  seq : ℕ
  snap : Option Digests

/-- A digest map as a JSON object. -/
def digestFields (snap : Digests) : Fields := snap.toList.map fun kd => (kd.1, .str kd.2)

/-- `serde_json::to_value`: the fields in key order, `snap` left out when there is none. -/
def Cursor.toValue (c : Cursor) : Json :=
  .obj ([("seq", .num (.posInt c.seq))] ++
    (c.snap.map fun snap => [("snap", Json.obj (digestFields snap))]).getD [] ++
    [("v", .num (.posInt c.v))])

/-- An object of strings as a digest map. -/
def readDigests (fields : Fields) : Option Digests :=
  (fields.mapM fun (f : String × Json) => f.2.asStr.map fun d => (f.1, d)).map fun kds => .ofList kds

/-- The field `snap`: absent or null is none. -/
def readSnap : Option Json → Option (Option Digests)
  | none => some none
  | some .null => some none
  | some (.obj fields) => (readDigests fields).map some
  | some _ => none

/-- `serde_json::from_value`: a struct is read from an object, or from an array of its fields. -/
def Cursor.fromValue : Json → Option Cursor
  | .obj fields => do
    let v ← (fields.lookup "v").bind Json.asU64
    let seq ← (fields.lookup "seq").bind Json.asU64
    let snap ← readSnap (fields.lookup "snap")
    return ⟨v, seq, snap⟩
  | .arr [v, seq] => do return ⟨← v.asU64, ← seq.asU64, none⟩
  | .arr [v, seq, snap] => do return ⟨← v.asU64, ← seq.asU64, ← readSnap (some snap)⟩
  | _ => none

/-- Bytes of the compact text of a digest map. -/
def snapshotSize (snap : Digests) : ℕ :=
  2 + (snap.toList.map fun kd => strBytes kd.1 + 1 + strBytes kd.2).sum + (snap.size - 1)

/-! ## The state -/

/-- A change emitted and not yet acknowledged. -/
structure Pending where
  seq : ℕ
  key : String
  /-- The digest it leads to; none for a deletion. -/
  digest : Option String
  /-- When it was emitted. -/
  atTime : Nanos
  deriving DecidableEq, Repr

/-- What sets the confirmed listing. -/
inductive Baseline
  | silent
  | report
  | known
  deriving DecidableEq, Repr

/-- A plugin's hook that adds details to the events of what changed. It is a closure with a state of
its own: what it answers may depend on everything it was asked before. -/
structure Describe where
  reply : List (List ObjectEntry) → List ObjectEntry → List (Option Fields)
  asked : List (List ObjectEntry)

/-- The diff engine of one inventory watch. -/
structure Inventory where
  options : InventoryOptions
  /-- Key to digest, as the host stored. -/
  confirmed : Digests
  /-- The last details seen of each confirmed key, for deletions. -/
  seen : BTreeMap String ObjectEntry
  pending : List Pending
  nextSeq : ℕ
  baseline : Baseline
  /-- A resume that could not be exact reports a gap first. -/
  gap : Bool
  /-- The snapshot outgrew its budget; said once. -/
  warned : Bool
  describe : Option Describe
  /-- An object that leaves the listing is forgotten without an event. -/
  quietRemovals : Bool

/-- A found difference: what happened, to which entry, and the digest it leads to. -/
structure Change where
  op : ObjectOp
  entry : ObjectEntry
  digest : Option String
  deriving DecidableEq, Repr

/-- A change with the sequence number, snapshot and event it was emitted with. -/
structure Emitted where
  change : Change
  seq : ℕ
  snap : Option Digests
  event : WatchEvent

namespace Inventory

/-- A fresh inventory over a confirmed listing. -/
def fresh (options : InventoryOptions) (confirmed : Digests) (baseline : Baseline) (gap : Bool) :
    Inventory where
  options := options
  confirmed := confirmed
  seen := ∅
  pending := []
  nextSeq := 0
  baseline := baseline
  gap := gap
  warned := false
  describe := none
  quietRemovals := false

/-- The inventory a watch starts with, from the position the host stored, when there is one. -/
def new (X : Externs) (options : InventoryOptions) (resume : Option Json) :
    Except WatchError Inventory :=
  match resume with
  | none =>
    .ok (fresh options ∅ (match options.start with | .now => .silent | .existing => .report) false)
  | some value =>
    match Cursor.fromValue value with
    | none => .error (.invalidSpec (options.store ++
        ": the stored position is not one an inventory wrote: " ++ X.cursorError value))
    | some ⟨_, _, some snap⟩ => .ok (fresh options snap .known false)
    -- a position without a snapshot: what changed while stopped is not known exactly
    | some ⟨_, _, none⟩ => .ok (fresh options ∅ .silent true)

/-- Have a hook add details to the events of what changed. -/
def withDescribe (inv : Inventory) (d : Describe) : Inventory := { inv with describe := some d }

/-- Forget an object that leaves the listing without reporting it deleted. -/
def withQuietRemovals (inv : Inventory) : Inventory := { inv with quietRemovals := true }

/-! ## Polling -/

/-- The entries of a listing by key; of a repeated key the last entry counts. -/
def currentOf (listing : List ObjectEntry) : BTreeMap String ObjectEntry :=
  .ofList (listing.map fun e => (e.key, e))

/-- The digests of the entries. -/
def digestsOf (X : Externs) (current : BTreeMap String ObjectEntry) : Digests :=
  current.map fun _ e => e.digest X

/-- Drop the changes that waited for the whole timeout. -/
def expire (now : Nanos) (inv : Inventory) : Inventory :=
  { inv with pending := inv.pending.filter fun p => now - p.atTime < inv.options.ackTimeout }

/-- The digest of the latest pending change of `key`: `some none` for a pending deletion. -/
def pendingDigest (inv : Inventory) (key : String) : Option (Option String) :=
  (inv.pending.reverse.find? fun p => p.key == key).map Pending.digest

/-- The change a listed entry makes, if any. -/
def listedChange (X : Externs) (inv : Inventory) (key : String) (entry : ObjectEntry) :
    Option Change :=
  if inv.pendingDigest key = some (some (entry.digest X)) then none
  else
    match inv.confirmed[key]? with
    | some known =>
      if known = entry.digest X then none else some ⟨.modified, entry, some (entry.digest X)⟩
    | none => some ⟨.created, entry, some (entry.digest X)⟩

/-- The confirmed keys that left the listing and are not already reported deleted. -/
def gone (inv : Inventory) (current : BTreeMap String ObjectEntry) : List String :=
  inv.confirmed.keys.filter fun key => !current.contains key && inv.pendingDigest key != some none

/-- The deletion of a key, with the last details seen of it. -/
def deletion (inv : Inventory) (key : String) : Change :=
  ⟨.deleted, inv.seen[key]?.getD { key := key }, none⟩

/-- Every change a listing makes, in the order it is reported. -/
def changes (X : Externs) (inv : Inventory) (current : BTreeMap String ObjectEntry) :
    List Change :=
  current.toList.filterMap (fun ke => inv.listedChange X ke.1 ke.2) ++
    if inv.quietRemovals then [] else (inv.gone current).map inv.deletion

/-- With quiet removals, what left the listing is forgotten. -/
def forget (current : BTreeMap String ObjectEntry) (inv : Inventory) : Inventory :=
  if inv.quietRemovals then
    { inv with
      confirmed := (inv.gone current).foldl (fun m key => m.erase key) inv.confirmed
      seen := (inv.gone current).foldl (fun m key => m.erase key) inv.seen }
  else inv

/-- Keep the details of everything listed. -/
def remember (current : BTreeMap String ObjectEntry) (inv : Inventory) : Inventory :=
  { inv with seen := current.toList.foldl (fun m ke => m.insert ke.2.key ke.2) inv.seen }

/-- How many more changes fit the window. -/
def room (inv : Inventory) : ℕ := inv.options.maxInFlight - inv.pending.length

/-- What the plugin adds to the events of some changes, by key. -/
def details (inv : Inventory) (changes : List Change) : Inventory × BTreeMap String Fields :=
  match inv.describe with
  | none => (inv, ∅)
  | some d =>
    let alive := (changes.filter fun c => c.op != .deleted).map Change.entry
    if alive.isEmpty then (inv, ∅)
    else
      ({ inv with describe := some { d with asked := d.asked ++ [alive] } },
        .ofList ((alive.zip (d.reply d.asked alive)).filterMap fun ex =>
          ex.2.map fun extra => (ex.1.key, extra)))

/-- The listing a restart from the change of `key` to `digest` may trust, when it fits the budget:
the confirmed one with that change. -/
def snapshot (inv : Inventory) (key : String) (digest : Option String) :
    Inventory × Option Digests :=
  let snap := match digest with
    | some d => inv.confirmed.insert key d
    | none => inv.confirmed.erase key
  if snapshotSize snap ≤ inv.options.snapshotBytes then (inv, some snap)
  else ({ inv with warned := true }, none)

/-- What the id of an event hashes: store, location, key, operation and digest. -/
def idParts (inv : Inventory) (c : Change) : List String :=
  [inv.options.store, inv.options.location, c.entry.key, "\"" ++ c.op.name ++ "\"",
    c.digest.getD ""]

/-- The data of an event: the shared fields, and what the entry has of the others. -/
def eventData (X : Externs) (inv : Inventory) (c : Change) : Fields :=
  let shared := [("key", .str c.entry.key), ("location", .str inv.options.location),
    ("op", .str c.op.name), ("store", .str inv.options.store)]
  let sized := match c.entry.size with
    | some n => Json.set "size" (.num (.posInt n)) shared
    | none => shared
  let dated := match c.entry.modifiedAtMs.bind X.occurredAtFromMillis with
    | some t => Json.set "modifiedAt" (.str t) sized
    | none => sized
  let tagged := match c.entry.etag with
    | some t => Json.set "etag" (.str t) dated
    | none => dated
  match c.entry.version with
  | some t => Json.set "version" (.str t) tagged
  | none => tagged

/-- The event of a change, before the plugin's details. -/
def event (X : Externs) (inv : Inventory) (c : Change) (seq : ℕ) (snap : Option Digests) :
    WatchEvent where
  eventId := some ("obj-" ++ X.blake3Hex 32 (hashInput (inv.idParts c)))
  eventType := some "object.changed"
  occurredAt :=
    if c.op = .deleted then none else c.entry.modifiedAtMs.bind X.occurredAtFromMillis
  data := some (.obj (inv.eventData X c))
  upstreamCursor := some (Cursor.toValue ⟨cursorVersion, seq, snap⟩)

/-- Add the plugin's details beside the shared fields of an event. -/
def addDetails (extra : Option Fields) (e : WatchEvent) : WatchEvent :=
  match extra, e.data with
  | some extra, some (.obj data) =>
    { e with data := some (.obj (extra.foldl (fun d fv => Json.orInsert fv.1 fv.2 d) data)) }
  | _, _ => e

/-- Put a change in the window under the next sequence number. -/
def push (now : Nanos) (c : Change) (inv : Inventory) : Inventory :=
  { inv with
    nextSeq := inv.nextSeq + 1
    pending := inv.pending ++ [⟨inv.nextSeq, c.entry.key, c.digest, now⟩] }

/-- Emit changes in order; the last of the `take` emitted carries the snapshot. -/
def emitAll (X : Externs) (now : Nanos) (take : ℕ) :
    ℕ → List Change → BTreeMap String Fields → Inventory → Inventory × List Emitted
  | _, [], _, inv => (inv, [])
  | index, c :: rest, extras, inv =>
    let s := if index + 1 = take then (inv.push now c).snapshot c.entry.key c.digest
      else (inv.push now c, none)
    let e := addDetails extras[c.entry.key]? (s.1.event X c inv.nextSeq s.2)
    let r := emitAll X now take (index + 1) rest (extras.erase c.entry.key) s.1
    (r.1, ⟨c, inv.nextSeq, s.2, e⟩ :: r.2)

/-- The first listing of a silent start: the listing is the baseline. -/
def setBaseline (X : Externs) (current : BTreeMap String ObjectEntry) (inv : Inventory) :
    Inventory :=
  { inv with confirmed := digestsOf X current, seen := current, baseline := .known }

/-- A listing compared with the confirmed one. -/
def compareListing (X : Externs) (now : Nanos) (current : BTreeMap String ObjectEntry)
    (inv : Inventory) : Inventory × List Emitted :=
  let taken := (inv.changes X current).take inv.room
  let d := (remember current (forget current { inv with baseline := .known })).details taken
  emitAll X now taken.length 0 taken d.2 d.1

/-- A poll, with the changes it emits. -/
def pollCore (X : Externs) (now : Nanos) (listing : List ObjectEntry) (inv : Inventory) :
    Inventory × List Emitted :=
  let live := { inv.expire now with gap := false }
  if inv.baseline = .silent then (live.setBaseline X (currentOf listing), [])
  else live.compareListing X now (currentOf listing)

/-- The events a full listing makes, in order: a gap first when the start could not be exact. -/
def poll (X : Externs) (now : Nanos) (listing : List ObjectEntry) (inv : Inventory) :
    Inventory × List WatchEvent :=
  let r := inv.pollCore X now listing
  (r.1, (if inv.gap then [{ gap := true }] else []) ++ r.2.map Emitted.event)

/-! ## Acknowledgements -/

/-- The sequence number a position names. -/
def positionSeq (position : Json) : Option ℕ := (position.get? "seq").bind Json.asU64

/-- The pending change a position acknowledges. -/
def acknowledges (inv : Inventory) (position : Json) : Option Pending :=
  (positionSeq position).bind fun seq => inv.pending.find? fun p => p.seq == seq

/-- The host is done with the change at `position`. Changes before it that it never acknowledged
were dropped; they show again at the next listing. -/
def acknowledged (inv : Inventory) (position : Json) : Inventory :=
  match inv.acknowledges position with
  | none => inv
  | some p =>
    let rest := (inv.pending.eraseP fun q => q.seq == p.seq).filter fun q => q.seq > p.seq
    match p.digest with
    | some d => { inv with pending := rest, confirmed := inv.confirmed.insert p.key d }
    | none =>
      { inv with
        pending := rest
        confirmed := inv.confirmed.erase p.key
        seen := inv.seen.erase p.key }

/-- Acknowledge events at once and in order, as a watch does whose notifications are never retried. -/
def acknowledgeAll (inv : Inventory) (events : List WatchEvent) : Inventory :=
  events.foldl (fun inv e =>
    match e.upstreamCursor with
    | some position => inv.acknowledged position
    | none => inv) inv

/-- Changes in flight. -/
def inFlight (inv : Inventory) : ℕ := inv.pending.length

/-- Whether the window has room for another change. -/
def hasRoom (inv : Inventory) : Bool := inv.pending.length < inv.options.maxInFlight

end Inventory

end McpgSdk
