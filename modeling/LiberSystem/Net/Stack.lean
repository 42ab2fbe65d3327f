import LiberSystem.Net.Conn

/-!
# The TCP half of the network stack

A call that sends builds a segment; what the layers below do with it (the room in the transmit
buffer, the answer of the IPv6 host) is an argument, and the segment built is part of the result.
-/

namespace LiberSystem.Net

/-- A segment built for the layers below. -/
structure TcpFrame where
  source : Local
  sourcePort : Nat
  destination : Local
  destinationPort : Nat
  seq : Seq
  ack : Seq
  flags : UInt8
  window : Nat
  opts : List UInt8
  payload : List UInt8
deriving DecidableEq, Repr

/-- The answer of the IPv6 host to a segment. -/
inductive Handoff where
  | sent
  | held (token : Nat)
  | refused
deriving DecidableEq, Repr

/-- What one call finds below it: the length of the transmit buffer, and what the IPv6
host does with a segment. -/
structure Below where
  outLen : Nat
  handoff : Handoff
deriving DecidableEq, Repr

structure Stack where
  clockMs : Nat
  raw : Bool
  ip : BitVec 32
  mtu : Nat
  conns : List TcpConn
  listeners : BindTable
  admission : Admission
  nextIss : Seq
deriving DecidableEq, Repr

def tcpConnMax : Nat := 4

namespace Stack

def new (raw : Bool) (ip : BitVec 32) (mtu : Nat) : Stack where
  clockMs := 0
  raw := raw
  ip := ip
  mtu := mtu
  conns := List.replicate tcpConnMax .closed
  listeners := .new
  admission := .new
  nextIss := 0x10000000

variable (s : Stack) (ci : Nat)

def conn : TcpConn := s.conns.getD ci .closed

def update (f : TcpConn → TcpConn) : Stack :=
  { s with conns := s.conns.modify ci f }

def l2 : Nat := if s.raw then 0 else ethHdr

def findConn (remote : Local) (remotePort : Nat) (addr : Local) (port : Nat) : Option Nat :=
  s.conns.findIdx? (·.isFor remote remotePort addr port)

def listenerFor (addr : Local) (port : Nat) : Option Nat :=
  (s.listeners.lookup addr port).map (·.1)

def synOptions : List UInt8 :=
  let mss := s.mtu - (ipv4Hdr + tcpHdr)
  [2,4,UInt8.ofNat (mss / 2 ^ 8),UInt8.ofNat mss,3,3,UInt8.ofNat tcpWsShift,1]

/-- The IPv4 segment, from the address the stack has now; `none` when it does not fit. -/
def buildTcpOpts (c : TcpConn) (flags : UInt8) (seq ack : Seq)
    (opts payload : List UInt8) (outLen : Nat) : Nat × Option TcpFrame :=
  let total := ipv4Hdr + (tcpHdr + opts.length) + payload.length
  if s.l2 + total > outLen then (0, none)
  else
    let window :=
      if hasFlag flags tcpSyn then c.rx.size else (c.rx.size - c.rxLen) >>> c.rcvWscale
    let peer :=
      match c.remoteAddr with
      | .v4 octets => octets
      | .v6 _ => 0
    (s.l2 + total, some ⟨.v4 s.ip,c.localPort,.v4 peer,c.remotePort,seq,ack,flags,min window 65535,
      opts,payload⟩)

def buildTcpSegment (c : TcpConn) (flags : UInt8) (seq ack : Seq)
    (opts payload : List UInt8) : TcpFrame :=
  let free := c.rx.size - c.rxLen
  let window := if hasFlag flags tcpSyn then min free 0xffff else free >>> c.rcvWscale
  ⟨c.localAddr,c.localPort,c.remoteAddr,c.remotePort,seq,ack,flags,min window 65535,opts,payload⟩

/-- Put one segment of connection `ci` on the wire, whichever family it is. The length
is that of an IPv4 frame, and zero for IPv6. -/
def emitTcp (flags : UInt8) (seq ack : Seq)
    (opts payload : List UInt8) (below : Below) : Nat × Option TcpFrame × Stack :=
  let c := s.conn ci
  let endSeq := seq + BitVec.ofNat 32 payload.length
    + BitVec.ofNat 32 (hasFlag flags tcpSyn).toNat
    + BitVec.ofNat 32 (hasFlag flags tcpFin).toNat
  match c.localAddr, c.remoteAddr with
  | .v4 _, _ =>
    let (len, frame) := s.buildTcpOpts c flags seq ack opts payload below.outLen
    -- a zero length is a segment that was not built
    if len > 0 then
      (len, frame, s.update ci fun c => { c with sent := c.sent.advance endSeq })
    else (0, none, s)
  | .v6 _, .v4 _ => (0, none, s)
  | .v6 _, .v6 _ =>
    let frame := buildTcpSegment c flags seq ack opts payload
    match below.handoff with
    | .sent => (0, some frame, s.update ci fun c => { c with sent := c.sent.advance endSeq })
    | .held token =>
      (0, some frame, s.update ci fun c => { c with sent := c.sent.hold token endSeq })
    | .refused => (0, some frame, s)

def tcpAlloc : Nat × Stack :=
  match s.conns.findIdx? (!·.inUse) with
  | some i => (i, s.update i TcpConn.taken)
  | none => (s.conns.length, { s with conns := s.conns ++ [TcpConn.closed.taken] })

def tcpOpenOutbound : Option Nat × Stack :=
  match s.admission.openOutbound with
  | (.error _, a) => (none, { s with admission := a })
  | (.ok _, a) =>
    let (ci, s) := { s with admission := a }.tcpAlloc
    (some ci, s.update ci fun c => { c with listener := 0 })

/-- Open an inbound connection from a SYN to a listener. A SYN that is not admitted
gets no segment back and creates no control block. -/
def passiveOpen (listener : Nat) (remote addr : Local) (srcPort dstPort : Nat)
    (segSeq : Seq) (peerWs : Bool) (peerMss : Nat) (below : Below) :
    Option TcpFrame × Stack :=
  match s.admission.admitSyn listener with
  | (.error _, a) => (none, { s with admission := a })
  | (.ok _, a) =>
    let (ci, s) := { s with admission := a }.tcpAlloc
    let iss := s.nextIss
    let s := { s with nextIss := iss + 0x1000 }
    let s := s.update ci
      (·.admitted listener remote addr srcPort dstPort segSeq iss peerWs peerMss)
    let opts := if peerWs then s.synOptions else s.synOptions.take 4
    let (_, frame, s) := s.emitTcp ci (tcpSyn ||| tcpAck) iss (segSeq + 1) opts [] below
    (frame, s.update ci (·.arm s.clockMs))

variable (tcp : List UInt8) (below : Below)

def onSynSent : Option TcpFrame × Stack :=
  let flags := segFlags tcp
  if hasFlag flags tcpSyn && hasFlag flags tcpAck && be32 tcp 8 == (s.conn ci).sndNxt then
    let s := s.update ci (·.answered s.mtu tcp)
    let c := s.conn ci
    (s.emitTcp ci tcpAck c.sndNxt c.rcvNxt [] [] below).2
  else (none, s)

/-- The ACK of our SYN-ACK completes a passive open, which then awaits the accept. -/
def completePassive : Stack :=
  let listener := (s.conn ci).listener
  { s with admission := (s.admission.handshakeComplete listener).2 }.update ci
    (·.completed s.mtu tcp)

def onEstablished : Option TcpFrame × Stack :=
  let (progressed, c) := (s.conn ci).receiveSegment s.clockMs tcp
  let s := s.update ci fun _ => c
  if progressed then (s.emitTcp ci tcpAck c.nextSequence c.rcvNxt [] [] below).2
  else (none, s)

def onConnSegment : Option TcpFrame × Stack :=
  let flags := segFlags tcp
  if dataOff tcp < tcpHdr ∨ dataOff tcp > tcp.length then (none, s)
  else if hasFlag flags tcpRst then
    (none, s.update ci fun c => { c with state := .closed, aborted := true })
  else
    match (s.conn ci).state with
    | .synSent => s.onSynSent ci tcp below
    | .synRcvd =>
      if hasFlag flags tcpAck && be32 tcp 8 == (s.conn ci).sndNxt then
        (s.completePassive ci tcp).onEstablished ci tcp below
      else (none, s)
    | _ => s.onEstablished ci tcp below

def onTcpSegment (remote addr : Local) (tcp : List UInt8) (below : Below) :
    Option TcpFrame × Stack :=
  if tcp.length < tcpHdr then (none, s)
  else
    let srcPort := be16 tcp 0
    let dstPort := be16 tcp 2
    match s.findConn remote srcPort addr dstPort with
    | some ci => s.onConnSegment ci tcp below
    | none =>
      let flags := segFlags tcp
      if hasFlag flags tcpSyn && !hasFlag flags tcpAck then
        match s.listenerFor addr dstPort with
        | none => (none, s)
        | some listener =>
          s.passiveOpen listener remote addr srcPort dstPort (be32 tcp 4) (peerOffersWs tcp)
            (peerMssOption tcp) below
      else (none, s)

def tcpFree : Stack :=
  let c := s.conn ci
  if !c.inUse then s
  else
    let a := s.admission.close c.rx.size
    let a := if c.state = .synRcvd then (a.releaseHalfOpen c.listener).2 else a
    { s with admission := a }.update ci TcpConn.freed

def tcpReset : Stack := s.update ci TcpConn.reset

def listen (binding : Binding) (effective : Nat) : Except BindRefusal Nat × Stack :=
  match s.listeners.bind binding with
  | .error refusal => (.error refusal, s)
  | .ok (id, listeners) =>
    (.ok id, { s with
      listeners := listeners
      admission := s.admission.registerListener id effective })

def unlisten (id : Nat) : Stack :=
  match s.listeners.unbind id with
  | (false, _) => s
  | (true, listeners) =>
    { s with
      listeners := listeners
      admission := s.admission.withdrawListener id
      conns := s.conns.map (·.withdrawn id) }

def onAddressInvalidated (address : BitVec 128) : Stack :=
  let gone := Local.v6 address
  let withdrawn := (s.listeners.entries.filter fun (_, held) =>
    held.address == gone && !held.address.isUnspecified).map (·.1)
  let s := withdrawn.foldl unlisten s
  { s with conns := s.conns.map (·.invalidated gone) }

def accepted (s : Stack) (ci : Nat) : Stack :=
  { s with admission := (s.admission.accepted (s.conn ci).listener).2 }

def takeAccepted (port : Nat) : Option Nat × Stack :=
  match s.conns.findIdx? fun c =>
      c.inUse && c.pendingAccept && c.localPort == port && c.state == .established with
  | some i => (some i, s.update i fun c => { c with pendingAccept := false })
  | none => (none, s)

def tcpOpen (ip : BitVec 32) (port localPort : Nat) (iss : Seq) : Stack :=
  s.update ci (·.opened (.v4 ip) port (.v4 s.ip) localPort iss)

def tcpOpen6From (peer : BitVec 128) (port localPort : Nat) (iss : Seq)
    (selected : Option (BitVec 128)) : Bool × Stack :=
  match selected with
  | none => (false, s)
  | some source => (true, s.update ci (·.opened (.v6 peer) port (.v6 source) localPort iss))

variable (below : Below)

def tcpBuildSyn : Option TcpFrame × Stack :=
  (s.emitTcp ci tcpSyn (s.conn ci).sndUna 0 s.synOptions [] below).2

def tcpSend (data : List UInt8) (aggregateRemaining : Nat) : Nat × Stack :=
  let c := s.conn ci
  if c.sendFailed || c.tx.finQueued then (0, s)
  else
    let (taken, tx) := c.tx.accept data aggregateRemaining
    (taken, s.update ci fun c => { c with tx := tx })

def tcpCloseHalf : Stack :=
  match (s.conn ci).tx.queueFin with
  | (true, tx) => s.update ci fun c => { c with tx := tx, state := .finWait }
  | (false, _) => s

def pumpProbe : Option TcpFrame × Stack :=
  let c := s.conn ci
  match c.tx.bytes[c.tx.flight.toNat]? with
  | none => (none, s)
  | some byte => (s.emitTcp ci tcpAck c.tx.sndNxt c.rcvNxt [] [byte] below).2

def pumpSynAck : Option TcpFrame × Stack :=
  let s := s.update ci fun c => { c with synAckDue := false }
  let c := s.conn ci
  let opts := if c.rcvWscale ≠ 0 then s.synOptions else s.synOptions.take 4
  (s.emitTcp ci (tcpSyn ||| tcpAck) c.sndUna c.rcvNxt opts [] below).2

def pumpQueue : Option TcpFrame × Stack :=
  let c := s.conn ci
  let flight := c.tx.flight
  let usable := c.cwnd.usable flight.toNat c.peerWindow
  match c.tx.nextSegment c.effectiveMss usable with
  | (none, _) => (none, s)
  | (some segment, tx) =>
    let s := s.update ci fun c => { c with tx := tx }
    let flags := if segment.fin then tcpFin ||| tcpAck else tcpPsh ||| tcpAck
    let payload := (tx.bytes.drop segment.offset).take segment.len
    let (len, frame, s) := s.emitTcp ci flags segment.sequence c.rcvNxt [] payload below
    -- only an IPv4 connection can report failure by a zero length
    if len = 0 ∧ c.localAddr.isV4 then (frame, s)
    else (frame, s.update ci (·.pumped s.clockMs segment.fin flight))

def tcpPump : Option TcpFrame × Stack :=
  let c := s.conn ci
  if !c.inUse || c.sendFailed then (none, s)
  else
    match c.persist.fire s.clockMs with
    | (true, persist) => (s.update ci fun c => { c with persist := persist }).pumpProbe ci below
    | (false, _) => if c.synAckDue then s.pumpSynAck ci below else s.pumpQueue ci below

def onSynAckTimer : Stack :=
  let s := s.update ci fun c => { c with rto := c.rto.backOff }
  let c := s.conn ci
  if c.rto.backoffs ≥ synAttempts then s.tcpFree ci
  else
    s.update ci fun c => { c.arm s.clockMs with synAckDue := true }

def onDataTimer : Stack :=
  let s := s.update ci fun c => { c with rto := c.rto.backOff }
  let c := s.conn ci
  if c.rto.backoffs ≥ maxDataRetransmissions then
    s.update ci fun c => { c with sendFailed := true, state := .closed, rtoDeadlineMs := none }
  else
    s.update ci fun c =>
      { c.arm s.clockMs with
        cwnd := c.cwnd.onTimeout c.tx.flight.toNat
        tx := c.tx.rewind
        sentAtMs := s.clockMs }

def tcpOnTimer : Stack :=
  let c := s.conn ci
  if !c.inUse then s
  else
    let now := s.clockMs
    let (released, closing) := c.closing.tick now
    let s := s.update ci fun c => { c with closing := closing }
    if released && c.state == .finWait then s.update ci fun c => { c with state := .closed }
    else
      match c.rtoDeadlineMs with
      | none => s
      | some deadline =>
        if now < deadline then s
        else if c.state = .synRcvd then s.onSynAckTimer ci
        else s.onDataTimer ci

def tcpOnPathMtu (ip : BitVec 32) (mtu : Nat) : Stack :=
  let mss := max (mtu - (ipv4Hdr + tcpHdr)) tcpMssFloor
  { s with conns := s.conns.map fun c =>
      if c.inUse && c.remoteAddr == .v4 ip then (c.lowerMss mss).2 else c }

def tcpPathMtu6 (mtu : Nat) : Stack :=
  let mss := min (max (mtu - (ipv6Hdr + tcpHdr)) tcpMssFloor) 65535
  s.update ci fun c => (c.lowerMss mss).2

def applyCompletion (move : TransmitBound → Option TransmitBound) : List TcpConn → List TcpConn
  | [] => []
  | c :: rest =>
    match move c.sent with
    | some moved => { c with sent := moved } :: rest
    | none => c :: applyCompletion move rest

def applyIpv6Completion (token : Nat) (reached : Bool) : Stack :=
  let move := fun b : TransmitBound => if reached then b.onSent token else b.onRetired token
  { s with conns := applyCompletion move s.conns }

def tcpTakeRxAll : List UInt8 × Stack :=
  let c := s.conn ci
  (c.rx.data.take c.rxLen, s.update ci fun c => { c with rxLen := 0 })

def tcpBuildWindowUpdate : Option TcpFrame × Stack :=
  let c := s.conn ci
  if !c.inUse || c.state != .established then (none, s)
  else (s.emitTcp ci tcpAck c.nextSequence c.rcvNxt [] [] below).2

end Stack

end LiberSystem.Net
