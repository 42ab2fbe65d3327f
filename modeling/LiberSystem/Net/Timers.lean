import LiberSystem.Net.SendQueue

/-!
# Timers and windows of a connection

The retransmission timer, the congestion window, the zero-window probe, the closing handshake and
the bound of what reached the wire. Times are milliseconds.
-/

namespace LiberSystem.Net

def u32Max : Nat := 2 ^ 32 - 1

def satAdd (a b : Nat) : Nat := min (a + b) u32Max

def satMul (a b : Nat) : Nat := min (a * b) u32Max

def initialRtoMs : Nat := 1000
def minRtoMs : Nat := 200
def maxRtoMs : Nat := 60000
def clockGranularityMs : Nat := 1
def maxDataRetransmissions : Nat := 8
def minSynScheduleMs : Nat := 180000

def clampRto (value : Nat) : Nat := max minRtoMs (min value maxRtoMs)

structure Rto where
  srttScaled : Nat
  rttvarScaled : Nat
  measured : Bool
  rtoMs : Nat
  backoffs : Nat
deriving DecidableEq, Repr

namespace Rto

def new : Rto := ⟨0,0,false,initialRtoMs,0⟩

def sample (r : Rto) (rtt : Nat) (segmentWasRetransmitted : Bool) : Rto :=
  if segmentWasRetransmitted then r
  else
    let srttScaled :=
      if r.measured then r.srttScaled - r.srttScaled / 8 + rtt else satMul rtt 8
    let rttvarScaled :=
      if r.measured then
        let srtt := r.srttScaled / 8
        r.rttvarScaled - r.rttvarScaled / 4 + (max srtt rtt - min srtt rtt)
      else satMul rtt 2
    let computed := satAdd (srttScaled / 8) (max rttvarScaled clockGranularityMs)
    ⟨srttScaled,rttvarScaled,true,clampRto computed,0⟩

def backOff (r : Rto) : Rto :=
  { r with rtoMs := clampRto (satMul r.rtoMs 2), backoffs := min (r.backoffs + 1) 255 }

def restart (r : Rto) : Rto := { r with backoffs := 0 }

end Rto

def synAttemptsFrom : Nat → Nat → Nat → Nat → Nat
  | 0, _, _, attempts => attempts
  | fuel + 1, interval, spanned, attempts =>
    let attempts := attempts + 1
    let spanned := satAdd spanned interval
    if satAdd spanned interval ≥ minSynScheduleMs then attempts
    else synAttemptsFrom fuel (clampRto (satMul interval 2)) spanned attempts

/-- How many times a SYN is sent again before the open fails. Each iteration adds at
least `minRtoMs` to the span, so the fuel is never used up. -/
def synAttempts : Nat := synAttemptsFrom (minSynScheduleMs / minRtoMs) initialRtoMs 0 0

def initialWindowCap : Nat := 14600
def duplicateAckThreshold : Nat := 3

def initialWindow (smss : Nat) : Nat := min (10 * smss) (max (2 * smss) initialWindowCap)

inductive DuplicateAction where
  | wait
  | fastRetransmit
  | inflate
deriving DecidableEq, Repr

structure CongestionWindow where
  smss : Nat
  cwnd : Nat
  ssthresh : Nat
  duplicates : Nat
  recoveryPoint : Option Seq
  towardNextSegment : Nat
deriving DecidableEq, Repr

namespace CongestionWindow

def new (smss : Nat) : CongestionWindow :=
  let smss := max smss 1
  ⟨smss,initialWindow smss,u32Max,0,none,0⟩

variable (c : CongestionWindow)

def setSmss (smss : Nat) : CongestionWindow :=
  { c with smss := max smss 1 }

def usable (flight peerWindow : Nat) : Nat :=
  min c.cwnd peerWindow - flight

def onTimeout (flight : Nat) : CongestionWindow :=
  { c with
    ssthresh := max (flight / 2) (2 * c.smss)
    cwnd := c.smss
    duplicates := 0
    recoveryPoint := none
    towardNextSegment := 0 }

def onDuplicateAck (flight : Nat) (sndNxt : Seq) : DuplicateAction × CongestionWindow :=
  if c.recoveryPoint.isSome then (.inflate, { c with cwnd := satAdd c.cwnd c.smss })
  else
    let duplicates := min (c.duplicates + 1) 255
    if duplicates < duplicateAckThreshold then (.wait, { c with duplicates })
    else
      let ssthresh := max (flight / 2) (2 * c.smss)
      (.fastRetransmit, { c with
        duplicates
        ssthresh
        cwnd := satAdd ssthresh (3 * c.smss)
        recoveryPoint := some sndNxt
        towardNextSegment := 0 })

def onNewAck (acked : Nat) (ack : Seq) : CongestionWindow :=
  let c := { c with duplicates := 0 }
  match c.recoveryPoint with
  | some point =>
    -- recovery ends when what was outstanding at its start is covered
    if (ack - point).negative then c
    else { c with cwnd := c.ssthresh, recoveryPoint := none, towardNextSegment := 0 }
  | none =>
    if c.cwnd < c.ssthresh then { c with cwnd := satAdd c.cwnd (min acked c.smss) }
    else
      let toward := satAdd c.towardNextSegment acked
      if toward ≥ c.cwnd then
        { c with towardNextSegment := toward - c.cwnd, cwnd := satAdd c.cwnd c.smss }
      else { c with towardNextSegment := toward }

end CongestionWindow

structure Persist where
  dueMs : Option Nat
  intervalMs : Nat
deriving DecidableEq, Repr

namespace Persist

def new : Persist := ⟨none,0⟩

def onWindow (p : Persist) (window waiting now rtoMs : Nat) : Persist :=
  if window > 0 ∨ waiting = 0 then new
  else if p.dueMs.isNone then ⟨some (now + clampRto rtoMs),clampRto rtoMs⟩
  else p

def fire (p : Persist) (now : Nat) : Bool × Persist :=
  match p.dueMs with
  | none => (false, p)
  | some due =>
    if now < due then (false, p)
    else
      let intervalMs := min (satMul p.intervalMs 2) maxRtoMs
      (true, ⟨some (now + intervalMs),intervalMs⟩)

end Persist

def timeWaitMs : Nat := 2 * 30000

inductive CloseState where
  | established
  | finWait1
  | finWait2
  | closing
  | closeWait
  | lastAck
  | timeWait (untilMs : Nat)
  | closed
deriving DecidableEq, Repr

structure Closing where
  state : CloseState
  finSent : Bool
  finAcknowledged : Bool
  peerFinSeen : Bool
deriving DecidableEq, Repr

namespace Closing

def new : Closing := ⟨.established,false,false,false⟩

def onFinSent (c : Closing) : Closing :=
  if c.finSent then c
  else
    { c with
      finSent := true
      state :=
        match c.state with
        | .closeWait => .lastAck
        | .established => .finWait1
        | other => other }

def onFinAcknowledged (c : Closing) (now : Nat) : Closing :=
  if !c.finSent || c.finAcknowledged then c
  else
    { c with
      finAcknowledged := true
      state :=
        match c.state with
        | .finWait1 => .finWait2
        | .closing => .timeWait (now + timeWaitMs)
        | .lastAck => .closed
        | other => other }

def tick (c : Closing) (now : Nat) : Bool × Closing :=
  match c.state with
  | .timeWait untilMs =>
    if now ≥ untilMs then (true, { c with state := .closed }) else (false, c)
  | .closed => (true, c)
  | _ => (false, c)

end Closing

def maxHeld : Nat := 16

/-- A segment handed to the layer below and not yet on the wire. -/
structure Held where
  token : Nat
  epoch : BitVec 32
  endSeq : Seq
deriving DecidableEq, Repr

structure TransmitBound where
  transmitted : Seq
  epoch : BitVec 32
  held : List (Option Held)
deriving DecidableEq, Repr

namespace TransmitBound

def new (iss : Seq) : TransmitBound := ⟨iss,0,List.replicate maxHeld none⟩

variable (b : TransmitBound)

/-- Reuse for a new connection; entries of the old one are stale by their epoch. -/
def reset (iss : Seq) : TransmitBound :=
  { b with epoch := b.epoch + 1, transmitted := iss }

def advance (endSeq : Seq) : TransmitBound :=
  if (endSeq - b.transmitted).negative ∨ endSeq - b.transmitted = 0 then b
  else { b with transmitted := endSeq }

variable (token : Nat)

/-- The layer below retained a segment; without a slot for it nothing is recorded. -/
def hold (endSeq : Seq) : TransmitBound :=
  let entry : Held := ⟨token,b.epoch,endSeq⟩
  match b.held.findIdx? (·.isNone) with
  | some i => { b with held := b.held.set i (some entry) }
  | none =>
    match b.held.findIdx? (·.any (·.epoch != b.epoch)) with
    | some i => { b with held := b.held.set i (some entry) }
    | none => b

def take : Option (Held × TransmitBound) :=
  match b.held.findIdx? (·.any (·.token == token)) with
  | none => none
  | some i =>
    (b.held[i]?.join).map fun entry => (entry, { b with held := b.held.set i none })

def onSent : Option TransmitBound :=
  (b.take token).map fun (entry, b) =>
    if entry.epoch != b.epoch then b else b.advance entry.endSeq

def onRetired : Option TransmitBound :=
  (b.take token).map (·.2)

end TransmitBound

end LiberSystem.Net
