import McpgSdk.Protocol
import McpgSdk.Lib.Run

/-!
# The queue watch: two threads over one window

A queue watch hands every message of a broker to the host as an event, and settles it upstream: it
acks the message when the host acknowledged its event, and releases it when the host did not in time.
One thread receives and offers, one settles; they share the window of deliveries in flight, under a
lock. The host acknowledges and cancels from threads of its own.

* `QueueOptions.validate`, `Delivery`, `Held`, `Settle`: the data;
* `receiverNext`, `settlerNext`, `cancelNext`: the next statement of each thread, with every section
  under the lock one step;
* `Queue.step`: one step of the whole system, with what the source answers and the host sends.

Beside what the source keeps, a `Queue` remembers what happened: the deliveries in the order they
were received (a delivery's `id` is its place there), the calls that settled them, and the positions
given, emitted, acknowledged and expired.
-/

set_option autoImplicit false

namespace McpgSdk

/-- How a queue watch runs, from its spec. -/
structure QueueOptions where
  source : String
  maxInFlight : ℕ
  ackTimeout : Nanos
  receiveWait : Nanos
  deriving DecidableEq, Repr

/-- Check the bounds a spec may set. -/
def QueueOptions.validate (o : QueueOptions) : Except String Unit :=
  if ¬ (1 ≤ o.maxInFlight ∧ o.maxInFlight ≤ 1000) then .error "max_in_flight must be 1 to 1000"
  else if o.ackTimeout = 0 then .error "ack_timeout_ms must be greater than 0"
  else if o.receiveWait = 0 ∨ o.receiveWait > millis 20000 then
    .error "the receive wait must be 1 ms to 20 s"
  else .ok ()

/-- One message as the broker delivered it. -/
structure Delivery where
  event : WatchEvent
  receipt : Json

namespace Queue

/-- The version every position is written with. -/
def cursorVersion : ℕ := 1

/-- First wait between two connection attempts. -/
def firstBackoff : Nanos := millis 500

/-- Longest wait between two connection attempts. -/
def maxBackoff : Nanos := millis 30000

/-- Longest wait of the settling thread. -/
def settleWait : Nanos := millis 1000

/-- A watch's options, whether its resource is an MCP Events source, and the host's payload limit. -/
structure Config where
  options : QueueOptions
  eventSource : Bool
  maxPayload : ℕ
  /-- The last point in time `Instant` can hold on the platform; none for a clock without an end. -/
  lastInstant : Option Nanos
  deriving DecidableEq, Repr

/-- `Instant` can hold the point in time. -/
def Config.holds (c : Config) (t : Nanos) : Bool := instantHolds c.lastInstant t

/-- `Instant + Duration`; none where it panics. -/
def Config.addInstant (c : Config) (t d : Nanos) : Option Nanos :=
  if c.holds (t + d) then some (t + d) else none

/-- A delivery with its place among those received. -/
structure Item where
  id : ℕ
  delivery : Delivery

/-- A delivery in the window. -/
structure Held where
  id : ℕ
  receipt : Json
  /-- When it entered the window. -/
  atTime : Nanos

/-- What the host tells the settling thread. -/
inductive Settle
  | ack (position : Json)
  | stop

/-- The two calls that settle a delivery. -/
inductive Call
  | ack
  | release
  deriving DecidableEq, Repr

/-- A call that settled a delivery. -/
structure Settlement where
  call : Call
  id : ℕ
  receipt : Json

/-- The sequence number a delivery was given. -/
structure Given where
  id : ℕ
  seq : ℕ
  deriving DecidableEq, Repr

/-- Where the receiving thread stands. -/
inductive ReceiverPc
  /-- At the head of the loop. -/
  | top
  /-- Inside `connect`. -/
  | connecting
  /-- Inside `pause`. -/
  | pausing (wakeAt : Nanos)
  /-- Inside `wait_for_room`. -/
  | waitRoom
  /-- Inside `receive`. -/
  | receiving (room : ℕ)
  /-- Deliveries arrived; before the stop flag is read again. -/
  | got (items : List Item)
  /-- Stopped: releasing what just arrived. -/
  | releasing (items : List Item)
  /-- A resource watch: settling at once. -/
  | acking (items : List Item)
  | offering (items : List Item)
  /-- In `offer`, after the delivery entered the window. -/
  | offered (item : Item) (seq : ℕ) (rest : List Item)
  /-- In `offer`, before `emit`. -/
  | emitting (item : Item) (seq : ℕ) (text : String) (rest : List Item)
  /-- In `offer`, before an event the host cannot take leaves the window. -/
  | taking (item : Item) (seq : ℕ) (rest : List Item)
  /-- In `offer`, before its message is removed upstream. -/
  | rejecting (item : Item) (rest : List Item)
  | done

/-- Where the settling thread stands. -/
inductive SettlerPc
  /-- At the head of the loop, before `expired`. -/
  | top
  /-- Releasing what expired. -/
  | releasing (late : List Held)
  /-- Before the wait is computed. -/
  | arming
  | waiting (deadline : Nanos)
  /-- An acknowledgement arrived; before `take`. -/
  | taking (position : Json)
  | acking (held : Held)
  /-- Stopped; before the window is emptied. -/
  | draining
  /-- Releasing what was still held. -/
  | drained (held : List Held)
  | done
  /-- The thread panicked. -/
  | dead

/-- The thread is gone, so that a join of it returns. -/
def SettlerPc.gone : SettlerPc → Bool
  | done | dead => true
  | _ => false

/-- Where `cancel_queue_watch` stands. -/
inductive CancelPc
  | idle
  /-- The flag is set; joining the receiving thread. -/
  | stopping
  /-- The receiving thread is gone. -/
  | joined
  /-- `Settle::Stop` is sent; joining the settling thread. -/
  | stopSent
  | returned
  deriving DecidableEq, Repr

end Queue

open Queue in
/-- A queue watch and what happened to it. -/
structure Queue where
  receiver : ReceiverPc
  settler : SettlerPc
  cancel : CancelPc
  connected : Bool
  backoff : Nanos
  pending : BTreeMap ℕ Held
  nextSeq : ℕ
  stop : Bool
  /-- Sent to the settling thread and not read; one that is gone reads nothing. -/
  settles : List Settle
  clock : Nanos
  /-- Every delivery `receive` returned. -/
  received : List Delivery
  /-- The calls of `ack` and `release`. -/
  log : List Settlement
  /-- The sequence numbers given. -/
  given : List Given
  /-- The positions emitted. -/
  emitted : List Given
  /-- The texts handed to `emit_event`. -/
  texts : List String
  /-- The emitted sequence numbers the host acknowledged. -/
  hostAcked : List ℕ
  /-- The deliveries the settling thread expired. -/
  expired : List ℕ

namespace Queue

/-- A watch as it starts. -/
def start (now : Nanos) : Queue where
  receiver := .top
  settler := .top
  cancel := .idle
  connected := false
  backoff := firstBackoff
  pending := ∅
  nextSeq := 0
  stop := false
  settles := []
  clock := now
  received := []
  log := []
  given := []
  emitted := []
  texts := []
  hostAcked := []
  expired := []

/-- Start a queue watch. -/
def spawnQueueWatch (c : Config) (now : Nanos) : Except WatchError Queue :=
  match c.options.validate with
  | .error message => .error (.invalidSpec (c.options.source ++ ": " ++ message))
  | .ok () => .ok (start now)

/-! ## The receiving thread -/

/-- The deliveries received after `n` others. -/
def itemsOf : ℕ → List Delivery → List Item
  | _, [] => []
  | n, d :: ds => ⟨n, d⟩ :: itemsOf (n + 1) ds

/-- The event of a delivery, with the position of its sequence number. -/
def positioned (event : WatchEvent) (seq : ℕ) : WatchEvent :=
  { event with upstreamCursor := some (.obj
    [("seq", .num (.posInt seq)), ("v", .num (.posInt cursorVersion))]) }

/-- The text handed to the host; none when there is no text or it is past the limit. -/
def offerText (X : Externs) (c : Config) (event : WatchEvent) (seq : ℕ) : Option String :=
  match X.eventToString (positioned event seq) with
  | .ok text => if text.utf8ByteSize > c.maxPayload then none else some text
  | .error _ => none

/-- Settle a delivery upstream. A failed call is only logged. -/
def settle (call : Call) (id : ℕ) (receipt : Json) (q : Queue) : Queue :=
  { q with log := q.log ++ [⟨call, id, receipt⟩] }

/-- The wait after a failed call, and the next one. -/
def retry (q : Queue) : Queue :=
  { q with
    receiver := .pausing (q.clock + q.backoff)
    backoff := min (q.backoff * 2) maxBackoff }

/-- The receiving thread's next statement; none while it waits or is inside a call of the source. -/
def receiverNext (X : Externs) (c : Config) (q : Queue) : Option Queue :=
  match q.receiver with
  | .top =>
    if q.stop then some { q with receiver := .done }
    else some { q with receiver := if q.connected then .waitRoom else .connecting }
  | .pausing wakeAt => if q.stop ∨ wakeAt ≤ q.clock then some { q with receiver := .top } else none
  -- a check under the lock; the condition variable may wake the thread at any time
  | .waitRoom =>
    if q.stop then some { q with receiver := .done }
    else if q.pending.size < c.options.maxInFlight then
      some { q with receiver := .receiving (c.options.maxInFlight - q.pending.size) }
    else none
  | .got items =>
    if q.stop then some { q with receiver := .releasing items }
    else if c.eventSource then some { q with receiver := .offering items }
    else some { q with receiver := .acking items }
  | .releasing [] => some { q with receiver := .done }
  | .releasing (i :: rest) =>
    some { settle .release i.id i.delivery.receipt q with receiver := .releasing rest }
  | .acking [] => some { q with receiver := .top, texts := q.texts ++ ["\x7b\x7d"] }
  | .acking (i :: rest) =>
    some { settle .ack i.id i.delivery.receipt q with receiver := .acking rest }
  | .offering [] => some { q with receiver := .top }
  | .offering (i :: rest) =>
    some { q with
      receiver := .offered i q.nextSeq rest
      nextSeq := q.nextSeq + 1
      pending := q.pending.insert q.nextSeq ⟨i.id, i.delivery.receipt, q.clock⟩
      given := q.given ++ [⟨i.id, q.nextSeq⟩] }
  | .offered i seq rest =>
    match offerText X c i.delivery.event seq with
    | some text => some { q with receiver := .emitting i seq text rest }
    | none => some { q with receiver := .taking i seq rest }
  | .emitting i seq text rest =>
    some { q with
      receiver := .offering rest
      emitted := q.emitted ++ [⟨i.id, seq⟩]
      texts := q.texts ++ [text] }
  -- the result of this `take` is not looked at
  | .taking i seq rest =>
    some { q with receiver := .rejecting i rest, pending := q.pending.erase seq }
  | .rejecting i rest =>
    some { settle .ack i.id i.delivery.receipt q with receiver := .offering rest }
  | .connecting => none
  | .receiving _ => none
  | .done => none

/-- `connect` returns. -/
def connectReturns (q : Queue) : Except String Unit → Option Queue
  | .ok () =>
    if q.receiver matches .connecting then
      some { q with receiver := .waitRoom, connected := true, backoff := firstBackoff }
    else none
  | .error _ => if q.receiver matches .connecting then some q.retry else none

/-- `receive` returns. -/
def receiveReturns (q : Queue) : Except String (List Delivery) → Option Queue
  | .ok deliveries =>
    if q.receiver matches .receiving _ then
      match deliveries with
      | [] => some { q with receiver := .top }
      | _ :: _ =>
        some { q with
          receiver := .got (itemsOf q.received.length deliveries)
          received := q.received ++ deliveries }
    else none
  | .error _ =>
    if q.receiver matches .receiving _ then some { q.retry with connected := false } else none

/-! ## The settling thread -/

/-- The sequence number a position names. -/
def positionSeq (position : Json) : Option ℕ := (position.get? "seq").bind Json.asU64

/-- The delivery waited past the timeout. -/
def isLate (c : Config) (now : Nanos) (h : Held) : Bool := c.options.ackTimeout ≤ now - h.atTime

/-- The deliveries that waited past the timeout, in order. -/
def late (c : Config) (q : Queue) : List Held :=
  (q.pending.toList.map Prod.snd).filter (isLate c q.clock)

/-- When the oldest delivery times out; an outer none where one of the sums panics. -/
def nextExpiry (c : Config) (q : Queue) : Option (Option Nanos) :=
  (q.pending.toList.mapM fun sh => c.addInstant sh.2.atTime c.options.ackTimeout).map List.min?

/-- The settling thread's next statement; none while it waits. -/
def settlerNext (c : Config) (q : Queue) : Option Queue :=
  match q.settler with
  | .top =>
    some { q with
      settler := .releasing (late c q)
      pending := q.pending.filter fun _ h => !isLate c q.clock h
      expired := q.expired ++ (late c q).map Held.id }
  | .releasing [] => some { q with settler := .arming }
  | .releasing (h :: rest) =>
    some { settle .release h.id h.receipt q with settler := .releasing rest }
  | .arming =>
    match nextExpiry c q with
    | some expiry =>
      some { q with settler := .waiting (q.clock + min
        ((expiry.map fun at' => at' - q.clock).getD settleWait) settleWait) }
    | none => some { q with settler := .dead }
  | .waiting deadline =>
    match q.settles with
    | .ack position :: rest => some { q with settler := .taking position, settles := rest }
    | .stop :: rest => some { q with settler := .draining, settles := rest }
    | [] => if deadline ≤ q.clock then some { q with settler := .top } else none
  | .taking position =>
    match (positionSeq position).bind fun seq => q.pending[seq]?.map fun h => (seq, h) with
    | some (seq, h) => some { q with settler := .acking h, pending := q.pending.erase seq }
    | none => some { q with settler := .top }
  | .acking h => some { settle .ack h.id h.receipt q with settler := .top }
  | .draining =>
    some { q with settler := .drained (q.pending.toList.map Prod.snd), pending := ∅ }
  | .drained [] => some { q with settler := .done }
  | .drained (h :: rest) =>
    some { settle .release h.id h.receipt q with settler := .drained rest }
  | .done | .dead => none

/-! ## The host -/

/-- `acknowledge_queue_watch`: only before the host cancels. -/
def acknowledge (q : Queue) (position : Json) : Option Queue :=
  if q.cancel = .idle then
    some { q with
      settles := q.settles ++ [.ack position]
      hostAcked := q.hostAcked ++
        ((positionSeq position).filter fun s => q.emitted.any fun e => e.seq == s).toList }
  else none

/-- The next statement of `cancel_queue_watch`; none while it joins a thread. -/
def cancelNext (q : Queue) : Option Queue :=
  match q.cancel with
  | .idle => some { q with cancel := .stopping, stop := true }
  | .stopping => if q.receiver matches .done then some { q with cancel := .joined } else none
  | .joined => some { q with cancel := .stopSent, settles := q.settles ++ [.stop] }
  -- the result of the join is not looked at
  | .stopSent => if q.settler.gone then some { q with cancel := .returned } else none
  | .returned => none

/-- A step of a queue watch. -/
inductive Act
  | receiver
  | connected (result : Except String Unit)
  | received (result : Except String (List Delivery))
  | settler
  | ack (position : Json)
  | cancel
  | tick (d : Nanos)

/-- One step; none where it cannot be taken. -/
def step (X : Externs) (c : Config) (q : Queue) : Act → Option Queue
  | .receiver => receiverNext X c q
  | .connected result => q.connectReturns result
  | .received result => q.receiveReturns result
  | .settler => settlerNext c q
  | .ack position => q.acknowledge position
  | .cancel => q.cancelNext
  | .tick d => some { q with clock := q.clock + d }

/-- The step relation. -/
def Steps (X : Externs) (c : Config) (q : Queue) (a : Act) (q' : Queue) : Prop :=
  q.step X c a = some q'

/-- A run of several steps, each of which passes the test `ok` where it starts. -/
def run (X : Externs) (c : Config) (ok : Queue → Act → Bool) (q : Queue) (acts : List Act) :
    Option Queue :=
  acts.foldlM (fun q a => if ok q a then q.step X c a else none) q

end Queue

end McpgSdk
