import Mathlib.Algebra.GroupWithZero.Nat
import Mathlib.Data.List.Basic

/-!
# The transmit queue

What a connection still owes the wire: the bytes sent and not acknowledged, the bytes accepted and
not sent, and the FIN behind them.
-/

namespace LiberSystem.Net

/-- A TCP sequence number. Addition wraps. -/
abbrev Seq := BitVec 32

def Seq.negative (d : Seq) : Bool := d.msb

def maxUnackedPerFlow : Nat := 256 * 1024

/-- A segment the queue wants on the wire; its bytes start at `offset` of the queue. -/
structure Segment where
  sequence : Seq
  offset : Nat
  len : Nat
  fin : Bool
  retransmitted : Bool
deriving DecidableEq, Repr

def Segment.sequenceLen (s : Segment) : Seq :=
  BitVec.ofNat 32 s.len + BitVec.ofNat 32 s.fin.toNat

inductive AckOutcome where
  | advanced (bytes : Seq) (coveredFin : Bool)
  | duplicate
  | old
  | invalid
deriving DecidableEq, Repr

structure SendQueue where
  bytes : List UInt8
  sndUna : Seq
  sndNxt : Seq
  finQueued : Bool
  finSent : Bool
  finAcknowledged : Bool
  retransmitted : Bool
  lastAck : Seq
  duplicates : Nat
deriving DecidableEq, Repr

namespace SendQueue

def new (iss : Seq) : SendQueue := ⟨[],iss,iss,false,false,false,false,iss,0⟩

variable (q : SendQueue)

def flight : Seq := q.sndNxt - q.sndUna

/-- Copy as much of `data` as the budgets allow. Nothing goes behind the FIN. -/
def accept (data : List UInt8) (aggregateRemaining : Nat) : Nat × SendQueue :=
  if q.finQueued then (0, q)
  else
    let perFlow := maxUnackedPerFlow - q.bytes.length
    let take := min (min data.length perFlow) aggregateRemaining
    (take, { q with bytes := q.bytes ++ data.take take })

def queueFin : Bool × SendQueue :=
  if q.finQueued then (false, q) else (true, { q with finQueued := true })

/-- The next segment, of at most `smss` bytes and within `usable` of window. A FIN
needs no window. -/
def nextSegment (smss usable : Nat) : Option Segment × SendQueue :=
  let offset := q.flight.toNat
  let available := q.bytes.length - offset
  let room := min usable smss
  if available > 0 then
    if room = 0 then (none, q)
    else
      let len := min available room
      let fin := q.finQueued && !q.finSent && len == available
      let segment : Segment := ⟨q.sndNxt,offset,len,fin,q.retransmitted⟩
      (some segment, { q with
        sndNxt := q.sndNxt + segment.sequenceLen
        finSent := q.finSent || fin })
  else if q.finQueued && !q.finSent then
    (some ⟨q.sndNxt,offset,0,true,q.retransmitted⟩, { q with
      sndNxt := q.sndNxt + 1
      finSent := true })
  else (none, q)

def rewind : SendQueue :=
  { q with sndNxt := q.sndUna, finSent := false, retransmitted := true }

def onAck (ack : Seq) : AckOutcome × SendQueue :=
  if ack = q.sndUna then
    if q.flight = 0 then (.old, q)
    else
      (.duplicate, { q with duplicates := min (q.duplicates + 1) 255, lastAck := ack })
  else if (ack - q.sndUna).negative then (.old, q)
  else if (q.sndNxt - ack).negative then (.invalid, q)
  else
    let advanced := ack - q.sndUna
    let coveredFin := q.finSent && !q.finAcknowledged && decide (advanced.toNat > q.bytes.length)
    let advanced := if coveredFin then advanced - 1 else advanced
    let retire := min advanced.toNat q.bytes.length
    let q' := { q with
      bytes := q.bytes.drop retire
      sndUna := ack
      finAcknowledged := q.finAcknowledged || coveredFin
      duplicates := 0
      lastAck := ack }
    -- what is outstanding now is fresh only when nothing is left of a retransmission
    let q' := if q'.flight = 0 then { q' with retransmitted := false } else q'
    (.advanced (advanced + BitVec.ofNat 32 coveredFin.toNat) coveredFin, q')

end SendQueue

end LiberSystem.Net
