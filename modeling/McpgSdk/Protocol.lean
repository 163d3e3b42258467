import McpgSdk.Lib.Json
import McpgSdk.Lib.OrdMap

/-!
# What the SDK takes from outside

* `WatchEvent`, `WatchError`: the protocol crate's records, with the fields the SDK sets or reads;
* `Externs`: the functions of other crates the watches call. Nothing is assumed of them here; a
  result that needs a property of one states it as a hypothesis.
-/

set_option autoImplicit false

namespace McpgSdk

/-- A point in time or a span of it, in nanoseconds. -/
abbrev Nanos : Type := ℕ

/-- `Instant` can hold the point in time, when `last` is the last one it can. Beyond it
`Instant + Duration` panics. -/
def instantHolds (last : Option Nanos) (t : Nanos) : Bool := last.all (t ≤ ·)

/-- Nanoseconds of some milliseconds. -/
def millis (n : ℕ) : Nanos := n * 1000000

/-- The event a watch hands to the host. -/
structure WatchEvent where
  eventId : Option String := none
  eventType : Option String := none
  occurredAt : Option String := none
  data : Option Json := none
  upstreamCursor : Option Json := none
  gap : Bool := false

/-- Why a watch does not start. -/
inductive WatchError
  | invalidSpec (message : String)
  | subscribe (message : String)
  deriving DecidableEq, Repr

/-- The functions of other crates the watches call. -/
structure Externs where
  /-- The first `n` hex digits of the blake3 hash of some bytes. -/
  blake3Hex : ℕ → List UInt8 → String
  /-- A time in Unix milliseconds as the protocol writes it. -/
  occurredAtFromMillis : ℤ → Option String
  /-- The text of an event, or serde's reason for refusing it. -/
  eventToString : WatchEvent → Except String String
  /-- Serde's reason for not reading a value as a position. -/
  cursorError : Json → String
  /-- The last point in time `Instant` can hold on the platform; none for a clock without an end. -/
  lastInstant : Option Nanos := none

/-- Plain stand-ins for evaluating on concrete inputs: the hash of some bytes is their text, one
character a byte, no time is readable, and every event has a text. -/
def plainExterns : Externs where
  blake3Hex _ input := String.ofList (input.map fun b => Char.ofNat b.toNat)
  occurredAtFromMillis _ := none
  eventToString e := .ok (e.eventId.getD "-")
  cursorError _ := "invalid type"

/-- The eight bytes of a length, most significant first. -/
def u64BeBytes (n : ℕ) : List UInt8 :=
  [56, 48, 40, 32, 24, 16, 8, 0].map fun k => UInt8.ofNat (n / 2 ^ k)

/-- The UTF-8 bytes of a string. -/
def bytes (s : String) : List UInt8 := s.toByteArray.data.toList

/-- What a hasher is fed for a list of parts: each with its length before it. -/
def hashInput (parts : List String) : List UInt8 :=
  parts.flatMap fun part => u64BeBytes part.utf8ByteSize ++ bytes part

end McpgSdk
