import LiberSystem.Net.AccountingRun

/-!
# What a peer that did not hear us meets

A segment that repeats what was received is dropped without an answer, and a received FIN is never
told to the closing machine.
-/

namespace LiberSystem.Net

/-- The stream read so far: the bytes to drain, the next sequence number, the end of the stream. -/
def TcpConn.received (c : TcpConn) : List UInt8 × Seq × Bool :=
  (c.rx.data.take c.rxLen,c.rcvNxt,c.peerFin)

namespace Stack

/-- The peer is told again how far it was heard, and nothing else happens to its stream. -/
def Reacknowledges (s : Stack) (ci : Nat) (result : Option TcpFrame × Stack) : Prop :=
  (∃ frame, result.1 = some frame ∧ hasFlag frame.flags tcpAck = true ∧
    frame.ack = (s.conn ci).rcvNxt) ∧ (result.2.conn ci).received = (s.conn ci).received

end Stack

/-- Of a segment that does not start at the expected sequence only a FIN can be taken. -/
theorem TcpConn.rcvNxt_receiveSegment {c : TcpConn} {now : Nat} {tcp : List UInt8}
    (hseq : be32 tcp 4 ≠ c.rcvNxt) (h : (c.receiveSegment now tcp).1 = true) :
    (c.receiveSegment now tcp).2.rcvNxt = c.rcvNxt + 1 := by
  obtain ⟨c',hacked,heq⟩ := c.receiveSegment_acked now tcp
  have hnxt : c'.rcvNxt = c.rcvNxt := by
    rcases hacked with rfl | rfl
    · rfl
    · obtain ⟨_,_,_,_,_,_,_,hframe⟩ := c.onTcpAck_eq now (be32 tcp 8) (be16 tcp 14)
      rw [hframe]
  have hdata : c'.receiveData (be32 tcp 4) (tcp.drop (dataOff tcp)) = (false, c') :=
    if_neg fun hin => hseq (hin.2.trans hnxt)
  rw [hdata] at heq
  rw [heq,receiveFin] at h ⊢
  split at h
  · next hfin =>
    rw [if_pos hfin]
    exact congrArg (· + 1) hnxt
  · cases h

namespace Stack

variable {s : Stack} {ci : Nat}

theorem onTcpSegment_established {remote addr : Local} {tcp : List UInt8}
    (hconn : s.findConn remote (be16 tcp 0) addr (be16 tcp 2) = some ci)
    (hstate : (s.conn ci).state = .established ∨ (s.conn ci).state = .finWait)
    (hrst : hasFlag (segFlags tcp) tcpRst = false) (below : Below) :
    s.onTcpSegment remote addr tcp below = (none, s) ∨
      s.onTcpSegment remote addr tcp below = s.onEstablished ci tcp below := by
  unfold onTcpSegment
  split
  · exact .inl rfl
  simp only [hconn,onConnSegment,hrst]
  split
  · exact .inl rfl
  · rcases hstate with hst | hst <;> rw [hst] <;> exact .inr rfl

/-- Whatever starts before the expected sequence is not acknowledged again: it is dropped
in silence, or its FIN moves the stream on. -/
theorem not_reacknowledges (remote addr : Local) (tcp : List UInt8) (below : Below)
    (hconn : s.findConn remote (be16 tcp 0) addr (be16 tcp 2) = some ci)
    (hstate : (s.conn ci).state = .established ∨ (s.conn ci).state = .finWait)
    (hrst : hasFlag (segFlags tcp) tcpRst = false)
    (hbefore : Seq.negative (be32 tcp 4 - (s.conn ci).rcvNxt) = true) :
    ¬ s.Reacknowledges ci (s.onTcpSegment remote addr tcp below) := by
  rintro ⟨⟨frame,hframe,-⟩,hsame⟩
  rcases onTcpSegment_established hconn hstate hrst below with hdrop | hest
  · rw [hdrop] at hframe
    cases hframe
  rw [hest] at hframe hsame
  have htook : ((s.conn ci).receiveSegment s.clockMs tcp).1 = true := by
    unfold onEstablished at hframe
    dsimp only at hframe
    split at hframe
    · assumption
    · cases hframe
  obtain ⟨b,heq⟩ := s.onEstablished_eq ci tcp below
  rw [heq,conn_update_self (findConn_lt hconn)] at hsame
  have hkept : ((s.conn ci).receiveSegment s.clockMs tcp).2.rcvNxt = (s.conn ci).rcvNxt :=
    congrArg (·.2.1) hsame
  rw [TcpConn.rcvNxt_receiveSegment ?_ htook] at hkept
  · simp at hkept
  · intro hseq
    rw [hseq,BitVec.sub_self] at hbefore
    exact absurd hbefore (by decide)

def client : Local := .v4 0x0a000002

def server : Local := .v4 0x0a000001

def fromServer (seq ack : Seq) (flags : UInt8) (payload : List UInt8) : List UInt8 :=
  rawSegment 80 4000 seq ack flags 4096 payload

def hears (tcp : List UInt8) : Op := .segment server client tcp ⟨1514,.refused⟩

/-- The client opens a connection to port 80 of the server, and goes on with `calls`. -/
def connected (calls : List Op) : Option Stack :=
  runList step (new false 0x0a000002 1500) ([.openOutbound,.open4 0 0x0a000001 80 4000 100,
    hears (fromServer 500 101 (tcpSyn ||| tcpAck) [])] ++ calls)

/-- A FIN that comes again. -/
theorem not_reacknowledges_fin : ∃ s, connected [hears (fromServer 501 101 tcpFin [])] = some s ∧
    (s.conn 0).peerFin = true ∧ ¬ s.Reacknowledges 0
      (s.onTcpSegment server client (fromServer 501 101 tcpFin []) ⟨1514,.refused⟩) := by
  obtain ⟨s,hs,hfind,hstate,hnxt,hfin⟩ := exists_of_any
    (o := connected [hears (fromServer 501 101 tcpFin [])])
    (P := fun s => s.findConn server 80 client 4000 = some 0 ∧ (s.conn 0).state = .established ∧
      (s.conn 0).rcvNxt = 502 ∧ (s.conn 0).peerFin = true) (by decide +kernel)
  refine ⟨s,hs,hfin,not_reacknowledges _ _ _ _ hfind (.inl hstate) (by decide) ?_⟩
  rw [hnxt]
  decide

/-- One byte arrives, and arrives again because its acknowledgement was lost. -/
theorem repeated_data_unanswered :
    ∃ s, connected [hears (fromServer 501 101 (tcpPsh ||| tcpAck) [1])] = some s ∧
      (s.conn 0).received = ([1], 502, false) ∧ ¬ s.Reacknowledges 0 (s.onTcpSegment server client
        (fromServer 501 101 (tcpPsh ||| tcpAck) [1]) ⟨1514,.refused⟩) := by
  obtain ⟨s,hs,hreceived,hnone⟩ := exists_of_any
    (o := connected [hears (fromServer 501 101 (tcpPsh ||| tcpAck) [1])])
    (P := fun s => (s.conn 0).received = ([1], 502, false) ∧ (s.onTcpSegment server client
      (fromServer 501 101 (tcpPsh ||| tcpAck) [1]) ⟨1514,.refused⟩).1 = none) (by decide +kernel)
  refine ⟨s,hs,hreceived,?_⟩
  rintro ⟨⟨frame,hframe,-⟩,-⟩
  rw [hnone] at hframe
  cases hframe

end Stack

/-! ## Two FINs -/

/-- The connection waits its time out, or has done so. -/
def Closing.Settled (c : Closing) : Prop :=
  (∃ untilMs, c.state = .timeWait untilMs) ∨ c.state = .closed

theorem Closing.Deaf.not_settled {c : Closing} (h : c.Deaf) : ¬ c.Settled := by
  rcases h with h | h | h <;> simp [Settled,h]

/-- Each side has closed its direction and knows of the other. -/
def TcpConn.bothClosed (c : TcpConn) : Bool := c.tx.finAcknowledged && c.peerFin

namespace Stack

def Deaf (s : Stack) : Prop := ∀ ci, (s.conn ci).closing.Deaf

theorem deaf_new (raw : Bool) (ip : BitVec 32) (mtu : Nat) : (new raw ip mtu).Deaf := by
  intro ci
  have hconn : (new raw ip mtu).conn ci = .closed := by
    simp [conn,new,List.getD_eq_getElem?_getD,List.getElem?_replicate]
    split <;> rfl
  rw [hconn]
  exact .inl rfl

theorem deaf_step (s : Stack) (op : Op) (s' : Stack) (h : s.Deaf) (_ : True)
    (hs : s.step op = some s') : s'.Deaf := by
  obtain ⟨⟨out,s'⟩,hexec,rfl⟩ := Option.map_eq_some_iff.mp hs
  have hgoes := (works_exec hexec).2
  intro cj
  split at hgoes
  · next ci _ =>
    by_cases hcj : cj = ci
    · subst hcj
      exact hgoes.1 (h cj)
    · exact (hgoes.2 cj hcj).2 (h cj)
  · exact (hgoes cj).2 (h cj)

/-- No connection that both sides have closed ever waits its time out, whichever side was
first: the machine does not hear of the peer's FIN. -/
theorem bothClosed_not_settled (raw : Bool) (ip : BitVec 32) (mtu : Nat) (s : Stack)
    (hrun : Reaches step (fun _ _ => True) (new raw ip mtu) s) (ci : Nat) :
    (s.conn ci).bothClosed = true → ¬ (s.conn ci).closing.Settled := by
  intro _
  exact (hrun.invariant (deaf_new raw ip mtu) deaf_step ci).not_settled

def passiveClose : List Op :=
  [hears (fromServer 501 101 (tcpFin ||| tcpAck) []),.closeHalf 0,.pump 0 ⟨1514,.refused⟩,
    hears (fromServer 502 102 tcpAck [])]

theorem bothClosed_not_settled_passive : ∃ s, connected passiveClose = some s ∧
    (s.conn 0).bothClosed = true ∧ ¬ (s.conn 0).closing.Settled := by
  obtain ⟨s,hs,hboth⟩ := exists_of_any (o := connected passiveClose)
    (P := fun s => (s.conn 0).bothClosed = true) (by decide +kernel)
  exact ⟨s,hs,hboth,bothClosed_not_settled false 0x0a000002 1500 s
    (reaches_of_runList hs fun _ _ _ => trivial) 0 hboth⟩

/-- The client closes first; its FIN is acknowledged, and the server's FIN is. -/
def activeClose : List Op :=
  [.closeHalf 0,.pump 0 ⟨1514,.refused⟩,hears (fromServer 501 102 tcpAck []),
    hears (fromServer 501 102 (tcpFin ||| tcpAck) [])]

theorem activeClose_stays_in_finWait2 : ∃ s, connected activeClose = some s ∧
    (s.conn 0).bothClosed = true ∧ (s.conn 0).closing.state = .finWait2 ∧
      ¬ (s.conn 0).closing.Settled := by
  obtain ⟨s,hs,hboth,hstate⟩ := exists_of_any (o := connected activeClose)
    (P := fun s => (s.conn 0).bothClosed = true ∧ (s.conn 0).closing.state = .finWait2)
    (by decide +kernel)
  exact ⟨s,hs,hboth,hstate,by simp [Closing.Settled,hstate]⟩

end Stack

end LiberSystem.Net
