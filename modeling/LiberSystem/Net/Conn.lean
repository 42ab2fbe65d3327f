import LiberSystem.Net.Admission
import LiberSystem.Net.Bind
import LiberSystem.Net.Timers
import LiberSystem.Net.Wire

/-!
# A control block of the TCP pool

What each event of a connection's life does to its fields. Several set only a part of them; the rest
stays as it was.
-/

namespace LiberSystem.Net

inductive TcpState where
  | closed
  | synSent
  | synRcvd
  | established
  | finWait
deriving DecidableEq, Repr

/-- A receive buffer: its size, and the bytes from its start that were written. -/
structure RxBuffer where
  size : Nat
  data : List UInt8
deriving DecidableEq, Repr

structure TcpConn where
  inUse : Bool
  state : TcpState
  /-- The peer reset the connection. -/
  aborted : Bool
  peerFin : Bool
  /-- Established through a listener and not handed to a socket. -/
  pendingAccept : Bool
  localPort : Nat
  localAddr : Local
  remoteAddr : Local
  /-- The listener whose backlog funded the connection, or zero. -/
  listener : Nat
  remotePort : Nat
  sndUna : Seq
  sndNxt : Seq
  sent : TransmitBound
  tx : SendQueue
  rto : Rto
  cwnd : CongestionWindow
  persist : Persist
  closing : Closing
  peerWindow : Nat
  peerWscale : Nat
  peerMss : Nat
  pathMss : Nat
  sentAtMs : Nat
  rtoDeadlineMs : Option Nat
  sendFailed : Bool
  synAckDue : Bool
  rcvNxt : Seq
  rcvWscale : Nat
  rx : RxBuffer
  rxLen : Nat
deriving DecidableEq, Repr

def tcpRxBase : Nat := receiveBaseBytes

namespace TcpConn

def closed : TcpConn where
  inUse := false
  state := .closed
  aborted := false
  peerFin := false
  pendingAccept := false
  localPort := 0
  localAddr := .v4 0
  remoteAddr := .v4 0
  listener := 0
  remotePort := 0
  sndUna := 0
  sndNxt := 0
  sent := .new 0
  tx := .new 0
  rto := .new
  cwnd := .new tcpMss
  persist := .new
  closing := .new
  peerWindow := 0
  peerWscale := 0
  peerMss := tcpMss
  pathMss := tcpMss
  sentAtMs := 0
  rtoDeadlineMs := none
  sendFailed := false
  synAckDue := false
  rcvNxt := 0
  rcvWscale := 0
  rx := ⟨0,[]⟩
  rxLen := 0

variable (c : TcpConn)

def isFor (remote : Local) (remotePort : Nat) (addr : Local) (port : Nat) : Bool :=
  c.inUse && c.state != .closed && c.remoteAddr == remote && c.remotePort == remotePort
    && c.localAddr == addr && c.localPort == port

def startSender (mtu peerMss rawWindow : Nat) : TcpConn :=
  let pathMss := max (mtu - (ipv4Hdr + tcpHdr)) tcpMssFloor
  { c with
    tx := .new c.sndNxt
    rto := .new
    peerMss := peerMss
    pathMss := pathMss
    cwnd := .new (min peerMss pathMss)
    persist := .new
    closing := .new
    peerWindow := rawWindow
    peerWscale := if c.rcvWscale ≠ 0 then tcpWsShift else 0
    rtoDeadlineMs := none
    sendFailed := false }

def nextSequence : Seq :=
  match c.state with
  | .established | .finWait => c.tx.sndNxt
  | .closed | .synSent | .synRcvd => c.sndNxt

def effectiveMss : Nat := min c.peerMss c.pathMss

variable (now : Nat)

/-- An acknowledgement that advanced: the timer follows what is still outstanding. -/
def onAdvanced (wasRetransmitted : Bool) (bytes : Seq)
    (coveredFin : Bool) (segAck : Seq) : TcpConn :=
  let rtt := min (now - c.sentAtMs) u32Max
  let c := { c with
    rto := c.rto.sample rtt wasRetransmitted
    cwnd := c.cwnd.onNewAck bytes.toNat segAck
    closing := if coveredFin then c.closing.onFinAcknowledged now else c.closing }
  if c.tx.flight = 0 then { c with rtoDeadlineMs := none, rto := c.rto.restart }
  else { c with rtoDeadlineMs := some (now + c.rto.rtoMs) }

def onTcpAck (segAck : Seq) (rawWindow : Nat) : TcpConn :=
  let window := rawWindow * 2 ^ c.peerWscale
  let c := { c with peerWindow := window }
  let flight := c.tx.flight
  let sndNxt := c.tx.sndNxt
  let wasRetransmitted := c.tx.retransmitted
  let (outcome, tx) := c.tx.onAck segAck
  let c := { c with tx := tx }
  let c :=
    match outcome with
    | .advanced bytes coveredFin => c.onAdvanced now wasRetransmitted bytes coveredFin segAck
    | .duplicate =>
      match c.cwnd.onDuplicateAck flight.toNat sndNxt with
      | (.fastRetransmit, cwnd) => { c with cwnd := cwnd, tx := c.tx.rewind }
      | (_, cwnd) => { c with cwnd := cwnd }
    | .old | .invalid => c
  { c with persist := c.persist.onWindow window c.tx.bytes.length now c.rto.rtoMs }

/-- Take data at the expected sequence into the receive buffer, as much as fits. -/
def receiveData (segSeq : Seq) (payload : List UInt8) : Bool × TcpConn :=
  if payload ≠ [] ∧ segSeq = c.rcvNxt then
    let n := min payload.length (c.rx.size - c.rxLen)
    (true, { c with
      rx := ⟨c.rx.size,c.rx.data.take c.rxLen ++ payload.take n⟩
      rxLen := c.rxLen + n
      rcvNxt := c.rcvNxt + BitVec.ofNat 32 n })
  else (false, c)

def receiveFin (segSeq : Seq) (payload : List UInt8) (fin : Bool) : Bool × TcpConn :=
  if fin ∧ segSeq + BitVec.ofNat 32 payload.length = c.rcvNxt then
    (true, { c with rcvNxt := c.rcvNxt + 1, peerFin := true })
  else (false, c)

/-- The established part of a segment: the acknowledgement, the data in order, the FIN.
Is there anything to acknowledge? -/
def receiveSegment (tcp : List UInt8) : Bool × TcpConn :=
  let flags := segFlags tcp
  let segSeq := be32 tcp 4
  let payload := tcp.drop (dataOff tcp)
  let c := if hasFlag flags tcpAck then c.onTcpAck now (be32 tcp 8) (be16 tcp 14) else c
  let (tookData, c) := c.receiveData segSeq payload
  let (tookFin, c) := c.receiveFin segSeq payload (hasFlag flags tcpFin)
  (tookData || tookFin, c)

def reset (c : TcpConn) : TcpConn :=
  { c with
    state := .closed
    aborted := false
    peerFin := false
    pendingAccept := false
    rxLen := 0
    rcvWscale := 0
    tx := .new 0
    sent := c.sent.reset 0
    rto := .new
    rtoDeadlineMs := none
    sendFailed := false
    synAckDue := false }

def taken : TcpConn :=
  { c with
    inUse := true
    state := .closed
    aborted := false
    peerFin := false
    pendingAccept := false
    rxLen := 0
    rx := ⟨tcpRxBase,[]⟩ }

def freed : TcpConn :=
  { c with
    inUse := false
    state := .closed
    aborted := false
    peerFin := false
    pendingAccept := false
    rxLen := 0
    rcvWscale := 0
    listener := 0
    rx := ⟨0,[]⟩ }

def withdrawn (id : Nat) : TcpConn :=
  if c.inUse && c.listener == id && c.pendingAccept then
    { c with inUse := false, state := .closed, rx := ⟨0,[]⟩ }
  else c

/-- What the loss of its local address does to a connection: an established one is
closed to its owner, an attempt is retired. -/
def invalidated (gone : Local) : TcpConn :=
  if !c.inUse || c.localAddr != gone then c
  else
    match c.state with
    | .established | .finWait => { c with aborted := true, sendFailed := true }
    | .synSent | .synRcvd => { c.reset with inUse := false }
    | .closed => c

def opened (remote : Local) (port : Nat) (addr : Local) (localPort : Nat) (iss : Seq) : TcpConn :=
  { c with
    inUse := true
    state := .synSent
    aborted := false
    peerFin := false
    pendingAccept := false
    localPort := localPort
    remoteAddr := remote
    localAddr := addr
    remotePort := port
    sndUna := iss
    sndNxt := iss + 1
    sent := c.sent.reset iss
    rcvNxt := 0
    rxLen := 0 }

def admitted (listener : Nat) (remote addr : Local) (srcPort dstPort : Nat)
    (segSeq iss : Seq) (peerWs : Bool) (peerMss : Nat) : TcpConn :=
  { c with
    listener := listener
    state := .synRcvd
    localPort := dstPort
    remoteAddr := remote
    localAddr := addr
    remotePort := srcPort
    peerMss := peerMss
    rcvNxt := segSeq + 1
    sndUna := iss
    sndNxt := iss + 1
    sent := c.sent.reset iss
    rxLen := 0
    rcvWscale := if peerWs then tcpWsShift else c.rcvWscale }

def answered (mtu : Nat) (tcp : List UInt8) : TcpConn :=
  let c := { c with
    rcvNxt := be32 tcp 4 + 1
    sndUna := be32 tcp 8
    state := .established
    rcvWscale := if peerOffersWs tcp then tcpWsShift else c.rcvWscale }
  c.startSender mtu (peerMssOption tcp) (be16 tcp 14)

def completed (mtu : Nat) (tcp : List UInt8) : TcpConn :=
  let c := { c with sndUna := be32 tcp 8, state := .established, pendingAccept := true }
  c.startSender mtu c.peerMss (be16 tcp 14)

def arm : TcpConn := { c with rtoDeadlineMs := some (now + c.rto.rtoMs) }

/-- A segment of the queue went out. The timer is armed from the first outstanding. -/
def pumped (fin : Bool) (flight : Seq) : TcpConn :=
  let c := if fin then { c with closing := c.closing.onFinSent } else c
  if flight = 0 then { c.arm now with sentAtMs := now } else c

def lowerMss (mss : Nat) : Bool × TcpConn :=
  if mss ≥ c.pathMss then (false, c)
  else
    (true, { c with
      pathMss := mss
      cwnd := c.cwnd.setSmss (min mss c.peerMss)
      tx := c.tx.rewind })

variable (c : TcpConn)

theorem onTcpAck_eq (now : Nat) (segAck : Seq) (rawWindow : Nat) :
    ∃ tx rto cwnd persist closing peerWindow deadline,
      c.onTcpAck now segAck rawWindow = { c with
        tx := tx, rto := rto, cwnd := cwnd, persist := persist, closing := closing,
        peerWindow := peerWindow, rtoDeadlineMs := deadline } := by
  unfold onTcpAck
  dsimp only
  split
  · unfold onAdvanced
    dsimp only
    split <;> exact ⟨_,_,_,_,_,_,_,rfl⟩
  · split <;> exact ⟨_,_,_,_,_,_,_,rfl⟩
  · exact ⟨_,_,_,_,_,_,_,rfl⟩
  · exact ⟨_,_,_,_,_,_,_,rfl⟩

/-- A segment of an established connection, once its acknowledgement is taken. -/
theorem receiveSegment_acked (now : Nat) (tcp : List UInt8) :
    ∃ c', (c' = c ∨ c' = c.onTcpAck now (be32 tcp 8) (be16 tcp 14)) ∧
      let data := c'.receiveData (be32 tcp 4) (tcp.drop (dataOff tcp))
      let fin := data.2.receiveFin (be32 tcp 4) (tcp.drop (dataOff tcp))
        (hasFlag (segFlags tcp) tcpFin)
      c.receiveSegment now tcp = (data.1 || fin.1, fin.2) := by
  refine ⟨if hasFlag (segFlags tcp) tcpAck then c.onTcpAck now (be32 tcp 8) (be16 tcp 14) else c,
    ?_,rfl⟩
  split
  · exact .inr rfl
  · exact .inl rfl

/-- A segment of an established connection changes the sender, the receive buffer and
the receive sequence. -/
theorem receiveSegment_eq (now : Nat) (tcp : List UInt8) :
    ∃ tx rto cwnd persist closing peerWindow deadline data rxLen rcvNxt peerFin,
      (c.receiveSegment now tcp).2 = { c with
        tx := tx, rto := rto, cwnd := cwnd, persist := persist, closing := closing,
        peerWindow := peerWindow, rtoDeadlineMs := deadline, rx := ⟨c.rx.size,data⟩,
        rxLen := rxLen, rcvNxt := rcvNxt, peerFin := peerFin } := by
  obtain ⟨c',hacked,heq⟩ := c.receiveSegment_acked now tcp
  have hframe : ∃ tx rto cwnd persist closing peerWindow deadline, c' = { c with
      tx := tx, rto := rto, cwnd := cwnd, persist := persist, closing := closing,
      peerWindow := peerWindow, rtoDeadlineMs := deadline } := by
    rcases hacked with rfl | rfl
    · exact ⟨_,_,_,_,_,_,_,rfl⟩
    · exact c.onTcpAck_eq now (be32 tcp 8) (be16 tcp 14)
  obtain ⟨tx,rto,cwnd,persist,closing,peerWindow,deadline,rfl⟩ := hframe
  rw [heq]
  unfold receiveFin receiveData
  split <;> split <;> exact ⟨tx,rto,cwnd,persist,closing,peerWindow,deadline,_,_,_,_,rfl⟩

end TcpConn

end LiberSystem.Net
