import LiberSystem.Lib.Runs
import LiberSystem.Net.Stack

/-!
# Calls on the stack

Every call of the TCP half as one action, with what the callers see of its result. A
call that names a control block outside the pool stops the service, so it is not a
possible action.
-/

namespace LiberSystem.Net

inductive Op where
  | setClock (now : Nat)
  | alloc
  | openOutbound
  | open4 (ci : Nat) (ip : BitVec 32) (port localPort : Nat) (iss : Seq)
  | open6 (ci : Nat) (peer : BitVec 128) (port localPort : Nat) (iss : Seq)
      (selected : Option (BitVec 128))
  | buildSyn (ci : Nat) (below : Below)
  | reset (ci : Nat)
  | segment (remote addr : Local) (tcp : List UInt8) (below : Below)
  | send (ci : Nat) (data : List UInt8) (aggregateRemaining : Nat)
  | closeHalf (ci : Nat)
  | pump (ci : Nat) (below : Below)
  | onTimer (ci : Nat)
  | free (ci : Nat)
  | listen (binding : Binding) (effective : Nat)
  | unlisten (id : Nat)
  | takeAccepted (port : Nat)
  | accepted (ci : Nat)
  | invalidate (address : BitVec 128)
  | takeRxAll (ci : Nat)
  | windowUpdate (ci : Nat) (below : Below)
  | pathMtu4 (ip : BitVec 32) (mtu : Nat)
  | pathMtu6 (ci : Nat) (mtu : Nat)
  | completion (token : Nat) (reached : Bool)
deriving DecidableEq, Repr

/-- What a call gives back: the segment it built, the control block it answers with, the
bytes accepted or drained. -/
structure Out where
  frame : Option TcpFrame := none
  index : Option Nat := none
  taken : Nat := 0
  drained : List UInt8 := []
deriving DecidableEq, Repr

namespace Stack

def onBlock (s : Stack) (ci : Nat) (result : Out × Stack) : Option (Out × Stack) :=
  if ci < s.conns.length then some result else none

def exec (s : Stack) : Op → Option (Out × Stack)
  | .setClock now => some ({}, { s with clockMs := now })
  | .alloc => some ({ index := some s.tcpAlloc.1 }, s.tcpAlloc.2)
  | .openOutbound => some ({ index := s.tcpOpenOutbound.1 }, s.tcpOpenOutbound.2)
  | .open4 ci ip port localPort iss => s.onBlock ci ({}, s.tcpOpen ci ip port localPort iss)
  | .open6 ci peer port localPort iss selected =>
    s.onBlock ci ({}, (s.tcpOpen6From ci peer port localPort iss selected).2)
  | .buildSyn ci below =>
    s.onBlock ci ({ frame := (s.tcpBuildSyn ci below).1 }, (s.tcpBuildSyn ci below).2)
  | .reset ci => s.onBlock ci ({}, s.tcpReset ci)
  | .segment remote addr tcp below =>
    some ({ frame := (s.onTcpSegment remote addr tcp below).1 },
      (s.onTcpSegment remote addr tcp below).2)
  | .send ci data aggregateRemaining =>
    s.onBlock ci ({ taken := (s.tcpSend ci data aggregateRemaining).1 },
      (s.tcpSend ci data aggregateRemaining).2)
  | .closeHalf ci => s.onBlock ci ({}, s.tcpCloseHalf ci)
  | .pump ci below =>
    s.onBlock ci ({ frame := (s.tcpPump ci below).1 }, (s.tcpPump ci below).2)
  | .onTimer ci => s.onBlock ci ({}, s.tcpOnTimer ci)
  | .free ci => s.onBlock ci ({}, s.tcpFree ci)
  | .listen binding effective => some ({}, (s.listen binding effective).2)
  | .unlisten id => some ({}, s.unlisten id)
  | .takeAccepted port => some ({ index := (s.takeAccepted port).1 }, (s.takeAccepted port).2)
  | .accepted ci => s.onBlock ci ({}, s.accepted ci)
  | .invalidate address => some ({}, s.onAddressInvalidated address)
  | .takeRxAll ci =>
    s.onBlock ci ({ drained := (s.tcpTakeRxAll ci).1 }, (s.tcpTakeRxAll ci).2)
  | .windowUpdate ci below =>
    s.onBlock ci ({ frame := (s.tcpBuildWindowUpdate ci below).1 },
      (s.tcpBuildWindowUpdate ci below).2)
  | .pathMtu4 ip mtu => some ({}, s.tcpOnPathMtu ip mtu)
  | .pathMtu6 ci mtu => s.onBlock ci ({}, s.tcpPathMtu6 ci mtu)
  | .completion token reached => some ({}, s.applyIpv6Completion token reached)

theorem onBlock_eq_some {s : Stack} {ci : Nat} {r r' : Out × Stack}
    (h : s.onBlock ci r = some r') : ci < s.conns.length ∧ r = r' := by
  unfold onBlock at h
  split at h
  · next hci => exact ⟨hci,Option.some.inj h⟩
  · cases h

variable {s : Stack} {ci cj : Nat} {f : TcpConn → TcpConn}

@[simp] theorem length_update : (s.update ci f).conns.length = s.conns.length := by
  simp [update]

section

variable (h : ci < s.conns.length)
include h

theorem conn_of_lt : s.conn ci = s.conns[ci] := by
  simp [conn,List.getD_eq_getElem?_getD,h]

theorem getElem?_conns_of_lt : s.conns[ci]? = some (s.conn ci) := by
  rw [conn_of_lt h,List.getElem?_eq_getElem h]

theorem conn_update_self : (s.update ci f).conn ci = f (s.conn ci) := by
  simp [conn,update,List.getD_eq_getElem?_getD,h]

end

theorem conn_update_ne (h : cj ≠ ci) : (s.update ci f).conn cj = s.conn cj := by
  simp [conn,update,List.getD_eq_getElem?_getD,h.symm]

theorem update_update {g : TcpConn → TcpConn} :
    (s.update ci f).update ci g = s.update ci fun c => g (f c) := by
  simp [update,List.modify_modify_eq,Function.comp_def]

theorem findConn_lt {remote addr : Local} {remotePort port : Nat}
    (h : s.findConn remote remotePort addr port = some ci) : ci < s.conns.length := by
  obtain ⟨hci,-⟩ := List.findIdx?_eq_some_iff_getElem.mp h
  exact hci

theorem emitTcp_eq_update (s : Stack) (ci : Nat) (flags : UInt8) (seq ack : Seq)
    (opts payload : List UInt8) (below : Below) :
    ∃ move : TransmitBound → TransmitBound, (s.emitTcp ci flags seq ack opts payload below).2.2
        = s.update ci fun c => { c with sent := move c.sent } := by
  have hid : s.update ci (fun c => { c with sent := id c.sent }) = s := by
    have hmod : s.conns.modify ci (fun c => { c with sent := id c.sent }) = s.conns :=
      List.ext_getElem? fun j => by rw [List.getElem?_modify]; split <;> simp
    rw [update,hmod]
  unfold emitTcp
  dsimp only
  split
  · split
    · exact ⟨fun b => b.advance _,rfl⟩
    · exact ⟨id,hid.symm⟩
  · exact ⟨id,hid.symm⟩
  · split
    · exact ⟨fun b => b.advance _,rfl⟩
    · next token _ => exact ⟨fun b => b.hold token _,rfl⟩
    · exact ⟨id,hid.symm⟩

@[simp] theorem length_emitTcp (s : Stack) (ci : Nat) (flags : UInt8) (seq ack : Seq)
    (opts payload : List UInt8) (below : Below) :
    (s.emitTcp ci flags seq ack opts payload below).2.2.conns.length = s.conns.length := by
  obtain ⟨move,hmove⟩ := emitTcp_eq_update s ci flags seq ack opts payload below
  rw [hmove,length_update]

theorem onEstablished_eq (s : Stack) (ci : Nat) (tcp : List UInt8) (below : Below) :
    ∃ b, (s.onEstablished ci tcp below).2 = s.update ci fun _ =>
      { ((s.conn ci).receiveSegment s.clockMs tcp).2 with sent := b } := by
  unfold onEstablished
  dsimp only
  split
  · obtain ⟨move,hmove⟩ := emitTcp_eq_update (s.update ci fun _ =>
      ((s.conn ci).receiveSegment s.clockMs tcp).2) ci tcpAck
      ((s.conn ci).receiveSegment s.clockMs tcp).2.nextSequence
      ((s.conn ci).receiveSegment s.clockMs tcp).2.rcvNxt [] [] below
    refine ⟨move ((s.conn ci).receiveSegment s.clockMs tcp).2.sent,?_⟩
    rw [hmove,update_update]
  · exact ⟨((s.conn ci).receiveSegment s.clockMs tcp).2.sent,rfl⟩

end Stack

end LiberSystem.Net
