import LiberSystem.Net.StackRun

/-!
# The pool and its accounting

The stack seen from its accounting. Each call on the stack is one event here (`Stack.event`): data,
acknowledgements, windows and timers that send again are no event at all.
-/

namespace LiberSystem.Net

open List Function TcpConn

/-- What the accounting knows of a control block. -/
structure Block where
  inUse : Bool
  state : TcpState
  listener : Nat
  pendingAccept : Bool
  port : Nat
  addr : Local
  rxSize : Nat
deriving DecidableEq, Repr

variable (c : TcpConn)

def TcpConn.block : Block :=
  ⟨c.inUse,c.state,c.listener,c.pendingAccept,c.localPort,c.localAddr,c.rx.size⟩

namespace Block

def closed : Block := TcpConn.closed.block

variable (b : Block)

def halfOpen : Bool := b.inUse && b.state == .synRcvd

/-- Established through a listener and not handed over; possibly reset by the peer. -/
def pending : Bool := b.inUse && b.pendingAccept

def taken : Block :=
  { b with inUse := true, state := .closed, pendingAccept := false, rxSize := tcpRxBase }

def admitted (listener : Nat) (addr : Local) (port : Nat) (b : Block) : Block :=
  { b with listener := listener, state := .synRcvd, addr := addr, port := port }

def opened (addr : Local) (port : Nat) (b : Block) : Block :=
  { b with inUse := true, state := .synSent, pendingAccept := false, addr := addr, port := port }

def freed : Block :=
  { b with inUse := false, state := .closed, pendingAccept := false, listener := 0, rxSize := 0 }

def reset : Block := { b with state := .closed, pendingAccept := false }

def withdrawn (id : Nat) (b : Block) : Block :=
  if b.inUse && b.listener == id && b.pendingAccept then
    { b with inUse := false, state := .closed, rxSize := 0 }
  else b

def invalidated (gone : Local) (b : Block) : Block :=
  if !b.inUse || b.addr != gone then b
  else
    match b.state with
    | .synSent | .synRcvd => { b.reset with inUse := false }
    | .established | .finWait | .closed => b

end Block

theorem TcpConn.block_pumped (now : Nat) (fin : Bool) (flight : Seq) :
    (c.pumped now fin flight).block = c.block := by
  unfold pumped
  cases fin <;> dsimp only <;> split <;> rfl

theorem TcpConn.block_withdrawn (id : Nat) : (c.withdrawn id).block = c.block.withdrawn id := by
  unfold withdrawn Block.withdrawn
  by_cases hwait : (c.inUse && c.listener == id && c.pendingAccept)
  · rw [if_pos hwait,if_pos (by exact hwait)]
    rfl
  · rw [if_neg hwait,if_neg (by exact hwait)]

theorem TcpConn.block_invalidated (gone : Local) :
    (c.invalidated gone).block = c.block.invalidated gone := by
  unfold invalidated Block.invalidated
  by_cases hkept : (!c.inUse || c.localAddr != gone)
  · rw [if_pos hkept,if_pos (by exact hkept)]
  · rw [if_neg hkept,if_neg (by exact hkept)]
    cases hst : c.state <;> simp [hst,block,reset,Block.reset]

structure Pool where
  blocks : List Block
  listeners : BindTable
  admission : Admission
deriving DecidableEq, Repr

variable (s : Stack)

def Stack.pool : Pool := ⟨s.conns.map TcpConn.block,s.listeners,s.admission⟩

/-- What a call does to the pool. -/
inductive Event where
  | idle
  | alloc
  | openOutbound
  | passiveOpen (listener : Nat) (addr : Local) (port : Nat)
  | connect (ci : Nat) (addr : Local) (port : Nat)
  | establish (ci : Nat)
  | complete (ci : Nat)
  /-- Reset by the peer, given up by the sender, or through with closing. -/
  | close (ci : Nat)
  | reset (ci : Nat)
  | closeHalf (ci : Nat)
  | free (ci : Nat)
  | listen (binding : Binding) (effective : Nat)
  | unlisten (id : Nat)
  | take (port : Nat)
  | accepted (ci : Nat)
  | invalidate (address : BitVec 128)
deriving DecidableEq, Repr

namespace Pool

variable (p : Pool) (ci : Nat)

def block : Block := p.blocks.getD ci .closed

def update (f : Block → Block) : Pool :=
  { p with blocks := p.blocks.modify ci f }

def alloc : Nat × Pool :=
  match p.blocks.findIdx? (!·.inUse) with
  | some i => (i, p.update i Block.taken)
  | none => (p.blocks.length, { p with blocks := p.blocks ++ [Block.closed.taken] })

def openOutbound (p : Pool) : Pool :=
  match p.admission.openOutbound with
  | (.error _, a) => { p with admission := a }
  | (.ok _, a) =>
    let (ci, p) := { p with admission := a }.alloc
    p.update ci fun b => { b with listener := 0 }

def passiveOpen (listener : Nat) (addr : Local) (port : Nat) : Pool :=
  match p.admission.admitSyn listener with
  | (.error _, a) => { p with admission := a }
  | (.ok _, a) =>
    let (ci, p) := { p with admission := a }.alloc
    p.update ci (Block.admitted listener addr port)

def complete : Pool :=
  { p with admission := (p.admission.handshakeComplete (p.block ci).listener).2 }.update ci
    fun b => { b with state := .established, pendingAccept := true }

def free : Pool :=
  let b := p.block ci
  if !b.inUse then p
  else
    let a := p.admission.close b.rxSize
    let a := if b.state = .synRcvd then (a.releaseHalfOpen b.listener).2 else a
    { p with admission := a }.update ci Block.freed

def listen (binding : Binding) (effective : Nat) : Pool :=
  match p.listeners.bind binding with
  | .error _ => p
  | .ok (id, listeners) =>
    { p with listeners := listeners, admission := p.admission.registerListener id effective }

def unlisten (id : Nat) : Pool :=
  match p.listeners.unbind id with
  | (false, _) => p
  | (true, listeners) =>
    { listeners := listeners
      admission := p.admission.withdrawListener id
      blocks := p.blocks.map (Block.withdrawn id) }

def boundTo (gone : Local) : List Nat :=
  (p.listeners.entries.filter fun (_, held) =>
    held.address == gone && !held.address.isUnspecified).map (·.1)

def invalidate (address : BitVec 128) : Pool :=
  let gone := Local.v6 address
  let p := (p.boundTo gone).foldl unlisten p
  { p with blocks := p.blocks.map (Block.invalidated gone) }

def next (port : Nat) : Option Nat :=
  p.blocks.findIdx? fun b =>
    b.inUse && b.pendingAccept && b.port == port && b.state == .established

def take (port : Nat) : Pool :=
  match p.next port with
  | some i => p.update i fun b => { b with pendingAccept := false }
  | none => p

def accepted (p : Pool) (ci : Nat) : Pool :=
  { p with admission := (p.admission.accepted (p.block ci).listener).2 }

def apply : Event → Pool
  | .idle => p
  | .alloc => p.alloc.2
  | .openOutbound => p.openOutbound
  | .passiveOpen listener addr port => p.passiveOpen listener addr port
  | .connect ci addr port => p.update ci (Block.opened addr port)
  | .establish ci => p.update ci fun b => { b with state := .established }
  | .complete ci => p.complete ci
  | .close ci => p.update ci fun b => { b with state := .closed }
  | .reset ci => p.update ci Block.reset
  | .closeHalf ci => p.update ci fun b => { b with state := .finWait }
  | .free ci => p.free ci
  | .listen binding effective => p.listen binding effective
  | .unlisten id => p.unlisten id
  | .take port => p.take port
  | .accepted ci => p.accepted ci
  | .invalidate address => p.invalidate address

end Pool

namespace Stack

def connEvent (ci : Nat) (tcp : List UInt8) : Event :=
  let flags := segFlags tcp
  if dataOff tcp < tcpHdr ∨ dataOff tcp > tcp.length then .idle
  else if hasFlag flags tcpRst then .close ci
  else
    match (s.conn ci).state with
    | .synSent =>
      if hasFlag flags tcpSyn && hasFlag flags tcpAck && be32 tcp 8 == (s.conn ci).sndNxt then
        .establish ci
      else .idle
    | .synRcvd =>
      if hasFlag flags tcpAck && be32 tcp 8 == (s.conn ci).sndNxt then .complete ci else .idle
    | _ => .idle

def segmentEvent (remote addr : Local) (tcp : List UInt8) : Event :=
  if tcp.length < tcpHdr then .idle
  else
    match s.findConn remote (be16 tcp 0) addr (be16 tcp 2) with
    | some ci => s.connEvent ci tcp
    | none =>
      let flags := segFlags tcp
      if hasFlag flags tcpSyn && !hasFlag flags tcpAck then
        match s.listenerFor addr (be16 tcp 2) with
        | none => .idle
        | some listener => .passiveOpen listener addr (be16 tcp 2)
      else .idle

def timerEvent (ci : Nat) : Event :=
  let c := s.conn ci
  if !c.inUse then .idle
  else if (c.closing.tick s.clockMs).1 && c.state == .finWait then .close ci
  else
    match c.rtoDeadlineMs with
    | none => .idle
    | some deadline =>
      if s.clockMs < deadline then .idle
      else if c.state = .synRcvd then
        if c.rto.backOff.backoffs ≥ synAttempts then .free ci else .idle
      else if c.rto.backOff.backoffs ≥ maxDataRetransmissions then .close ci
      else .idle

def event : Op → Event
  | .alloc => .alloc
  | .openOutbound => .openOutbound
  | .open4 ci _ _ localPort _ => .connect ci (.v4 s.ip) localPort
  | .open6 ci _ _ localPort _ selected =>
    match selected with
    | none => .idle
    | some source => .connect ci (.v6 source) localPort
  | .reset ci => .reset ci
  | .segment remote addr tcp _ => s.segmentEvent remote addr tcp
  | .closeHalf ci => if (s.conn ci).tx.finQueued then .idle else .closeHalf ci
  | .onTimer ci => s.timerEvent ci
  | .free ci => .free ci
  | .listen binding effective => .listen binding effective
  | .unlisten id => .unlisten id
  | .takeAccepted port => .take port
  | .accepted ci => .accepted ci
  | .invalidate address => .invalidate address
  | .setClock _ | .buildSyn _ _ | .send _ _ _ | .pump _ _ | .takeRxAll _ | .windowUpdate _ _
  | .pathMtu4 _ _ | .pathMtu6 _ _ | .completion _ _ => .idle

/-- The control block and the listener of the passive open that a segment is. -/
def opens (remote addr : Local) (tcp : List UInt8) : Option (Nat × Nat) :=
  match s.segmentEvent remote addr tcp with
  | .passiveOpen id _ _ =>
    match s.admission.admitSyn id with
    | (.ok _, _) => some (s.tcpAlloc.1, id)
    | (.error _, _) => none
  | _ => none

theorem segmentEvent_cases (remote addr : Local) (tcp : List UInt8) :
    s.segmentEvent remote addr tcp = .idle ∨ (∃ ci, s.segmentEvent remote addr tcp = .close ci) ∨
      (∃ ci, s.segmentEvent remote addr tcp = .establish ci) ∨
      (∃ ci, s.segmentEvent remote addr tcp = .complete ci) ∨
      ∃ listener, s.segmentEvent remote addr tcp = .passiveOpen listener addr (be16 tcp 2) := by
  unfold segmentEvent
  split
  · exact .inl rfl
  split
  · unfold connEvent
    dsimp only
    split
    · exact .inl rfl
    split
    · exact .inr (.inl ⟨_,rfl⟩)
    split
    · split
      · exact .inr (.inr (.inl ⟨_,rfl⟩))
      · exact .inl rfl
    · split
      · exact .inr (.inr (.inr (.inl ⟨_,rfl⟩)))
      · exact .inl rfl
    · exact .inl rfl
  · dsimp only
    split
    · split
      · exact .inl rfl
      · exact .inr (.inr (.inr (.inr ⟨_,rfl⟩)))
    · exact .inl rfl

variable {s : Stack} {ci : Nat}

variable {f : TcpConn → TcpConn}

theorem pool_update {g : Block → Block}
    (h : ∀ c : TcpConn, (f c).block = g c.block) : (s.update ci f).pool = s.pool.update ci g := by
  have hmap : (s.conns.modify ci f).map block = (s.conns.map block).modify ci g := by
    refine ext_getElem? fun j => ?_
    simp only [getElem?_map,getElem?_modify]
    split <;> cases s.conns[j]? <;> simp [h]
  simp only [pool,update,Pool.update,hmap]

theorem pool_update_idle (hci : ci < s.conns.length)
    (h : (f (s.conn ci)).block = (s.conn ci).block) : (s.update ci f).pool = s.pool := by
  have hmap : (s.conns.modify ci f).map block = s.conns.map block := by
    refine ext_getElem? fun j => ?_
    simp only [getElem?_map,getElem?_modify]
    split
    · next heq =>
      subst heq
      rw [getElem?_conns_of_lt hci]
      simp [h]
    · cases s.conns[j]? <;> simp
  simp only [pool,update,hmap]

theorem pool_block (hci : ci < s.conns.length) : s.pool.block ci = (s.conn ci).block := by
  simp [pool,Pool.block,conn,getD_eq_getElem?_getD,hci]

theorem pool_nextIss (s : Stack) (iss : Seq) : ({ s with nextIss := iss } : Stack).pool = s.pool :=
  rfl

theorem pool_emitTcp (hci : ci < s.conns.length) (flags : UInt8) (seq ack : Seq)
    (opts payload : List UInt8) (below : Below) :
    (s.emitTcp ci flags seq ack opts payload below).2.2.pool = s.pool := by
  obtain ⟨move,hmove⟩ := emitTcp_eq_update s ci flags seq ack opts payload below
  rw [hmove]
  exact pool_update_idle hci rfl

theorem pool_tcpAlloc (s : Stack) :
    s.tcpAlloc.1 = s.pool.alloc.1 ∧ s.tcpAlloc.2.pool = s.pool.alloc.2 := by
  have hfind : s.pool.blocks.findIdx? (!·.inUse) = s.conns.findIdx? (!·.inUse) := by
    simp [pool,findIdx?_map,comp_def,block]
  unfold tcpAlloc Pool.alloc
  rw [hfind]
  cases s.conns.findIdx? (!·.inUse) with
  | some i => exact ⟨rfl,pool_update fun _ => rfl⟩
  | none =>
    refine ⟨by simp [pool],?_⟩
    simp [pool,Block.closed,block,taken,Block.taken]

theorem tcpAlloc_lt (s : Stack) : s.tcpAlloc.1 < s.tcpAlloc.2.conns.length := by
  unfold tcpAlloc
  split
  · next i hi =>
    obtain ⟨hlt,-⟩ := findIdx?_eq_some_iff_getElem.mp hi
    simpa using hlt
  · simp

variable (hci : ci < s.conns.length)
include hci

theorem pool_completePassive (tcp : List UInt8) :
    (s.completePassive ci tcp).pool = s.pool.complete ci := by
  unfold completePassive Pool.complete
  rw [pool_block hci]
  exact pool_update fun _ => rfl

theorem pool_accepted : (s.accepted ci).pool = s.pool.accepted ci := by
  unfold accepted Pool.accepted
  rw [pool_block hci]
  rfl

end Stack

end LiberSystem.Net
