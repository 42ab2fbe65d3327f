import LiberSystem.Kernel.Object.Handle

/-!
# Channels

One endpoint of `object/channel/mod.rs`. An operation holds the inbox's lock throughout, so it is
one step. The upgrade of the weak reference to the peer is an argument. The number of a message and
the Domain that sent it are ghosts.
-/

namespace LiberSystem

def CHANNEL_QUEUE_DEFAULT : Nat := 64

def CHANNEL_QUEUE_MAX : Nat := 4096

inductive ChannelError where
  | peerClosed
  | full
  | empty
  deriving DecidableEq, Repr

/-- Why `recv_identified` did not take the message. -/
inductive RecvRefusal where
  | tooLarge
  | tooManyCaps
  | superseded
  | gone (err : ChannelError)
  deriving DecidableEq, Repr

/-- The bytes a queued message is charged for, and the Domain that is. -/
structure QueueCharge where
  domain : DomainId
  bytes : Nat
  deriving DecidableEq, Repr

/-- A unit of IPC. -/
structure Message where
  id : Nat
  bytes : List UInt8
  caps : List Capability
  queueCharge : Option QueueCharge
  /-- Off the queue, but still counted against its depth. -/
  slotReserved : Bool
  /-- Ghost: how many messages the endpoint had accepted before. -/
  stamp : Nat
  /-- Ghost: the Domain of the process that sent it. -/
  sender : Option DomainId
  deriving DecidableEq, Repr

namespace Message

def new (id : Nat) (bytes : List UInt8) (caps : List Capability) : Message :=
  ⟨id,bytes,caps,none,false,0,none⟩

section

variable {D : Type} (Q : Quota D)

def chargeQueue (domain : DomainId) (msg : Message) (ds : D) : Option Message × D :=
  match Q.tryChargeIpcQueue domain msg.bytes.length ds with
  | (true, ds') => (some { msg with queueCharge := some ⟨domain,msg.bytes.length⟩ }, ds')
  | (false, ds') => (none, ds')

def releaseQueueCharge (msg : Message) (ds : D) : Message × D :=
  match msg.queueCharge with
  | some charge =>
    ({ msg with queueCharge := none }, Q.unchargeIpcQueue charge.domain charge.bytes ds)
  | none => (msg, ds)

end

end Message

/-- A queue limit: at least one message, at most `CHANNEL_QUEUE_MAX`. -/
structure QueueLimit where
  val : Nat
  pos : 0 < val
  le : val ≤ CHANNEL_QUEUE_MAX

/-- The limit for a depth that a creator asks for: `0` is the default, and anything else
is clamped. -/
def QueueLimit.ofDepth (depth : Nat) : QueueLimit :=
  if depth = 0 then ⟨CHANNEL_QUEUE_DEFAULT,by decide,by decide⟩
  else ⟨max 1 (min depth CHANNEL_QUEUE_MAX),by omega,by unfold CHANNEL_QUEUE_MAX; omega⟩

def fetchAdd (n : Nat) : Nat := (n + 1) % 2 ^ 64

def fetchSub (n : Nat) : Nat := (n + (2 ^ 64 - 1)) % 2 ^ 64

structure Channel where
  inbox : List Message
  limit : QueueLimit
  /-- The messages taken by a receive that has not ended. -/
  inFlight : Nat

namespace Channel

def new (depth : Nat) : Channel := ⟨[],QueueLimit.ofDepth depth,0⟩

def depth (ch : Channel) : Nat := ch.inbox.length + ch.inFlight

section

variable {D : Type} (Q : Quota D)

/-- `send_inner`. `ring` says whether the heap gives the ring room for one more. A
refused send answers with the capabilities of the message. -/
def sendInner (ring : Bool) (msg : Message) (sender : Option DomainId) (peer : Option Channel)
    (ds : D) : Except (ChannelError × List Capability) Channel × D :=
  match peer with
  | none => (.error (.peerClosed, msg.caps), ds)
  | some peer =>
    if peer.depth ≥ peer.limit.val then (.error (.full, msg.caps), ds)
    else if ring = false then (.error (.full, msg.caps), ds)
    else
      match sender with
      | none => (.ok { peer with inbox := peer.inbox ++ [msg] }, ds)
      | some domain =>
        match msg.chargeQueue Q domain ds with
        | (none, ds') => (.error (.full, msg.caps), ds')
        | (some msg, ds') => (.ok { peer with inbox := peer.inbox ++ [msg] }, ds')

/-- `recv`. The dequeue is the commit: the charge is released at once. The flag says
whether a sender that waits for room is woken. -/
def recv (peerClosed : Bool) (ch : Channel) (ds : D) :
    Except ChannelError (Message × Bool) × Channel × D :=
  match ch.inbox with
  | msg :: rest =>
    let wasFull := decide (ch.depth ≥ ch.limit.val)
    let r := msg.releaseQueueCharge Q ds
    (.ok (r.1, wasFull && !peerClosed), { ch with inbox := rest }, r.2)
  | [] => (.error (if peerClosed then .peerClosed else .empty), ch, ds)

/-- `commit_delivery`: the charge and the slot of a taken message are free. The flag
says whether a sender that waits for room is woken. -/
def commitDelivery (peerClosed : Bool) (msg : Message) (ch : Channel) (ds : D) :
    (Message × Bool) × Channel × D :=
  let r := msg.releaseQueueCharge Q ds
  if r.1.slotReserved then
    let freed := decide (ch.inbox.length + ch.inFlight ≥ ch.limit.val)
    (({ r.1 with slotReserved := false }, freed && !peerClosed),
      { ch with inFlight := fetchSub ch.inFlight }, r.2)
  else ((r.1, false), ch, r.2)

def drainInbox : List Message → D → D
  | [], ds => ds
  | msg :: rest, ds => drainInbox rest (msg.releaseQueueCharge Q ds).2

end

def peekIdentified (peerClosed : Bool) (ch : Channel) : Except ChannelError (Nat × Nat × Nat) :=
  match ch.inbox with
  | msg :: _ => .ok (msg.id, msg.bytes.length, msg.caps.length)
  | [] => .error (if peerClosed then .peerClosed else .empty)

def recvIdentified (peerClosed : Bool) (id bytesCap capSlots : Nat) (ch : Channel) :
    Except RecvRefusal (Message × Channel) :=
  match ch.inbox with
  | msg :: rest =>
    if msg.id ≠ id then .error .superseded
    else if msg.bytes.length > bytesCap then .error .tooLarge
    else if msg.caps.length > capSlots then .error .tooManyCaps
    else
      .ok ({ msg with slotReserved := true },
        { ch with inbox := rest, inFlight := fetchAdd ch.inFlight })
  | [] => .error (.gone (if peerClosed then .peerClosed else .empty))

def returnToHead (msg : Message) (ch : Channel) : Channel :=
  { ch with
    inFlight := if msg.slotReserved then fetchSub ch.inFlight else ch.inFlight
    inbox := { msg with slotReserved := false } :: ch.inbox }

end Channel

end LiberSystem
