import LiberSystem.Net.Pool
import LiberSystem.Net.SendStream

/-!
# What a call does to the control blocks

A block whose handshake is over keeps its queue, and no call tells its closing machine of the
peer's FIN. A block that is opened, or whose handshake completes, starts anew.
-/

namespace LiberSystem.Net

open List TcpConn SendQueue.Evolves

namespace Closing

/-- The states of a machine that is not told of the peer's FIN. -/
def Deaf (c : Closing) : Prop :=
  c.state = .established ∨ c.state = .finWait1 ∨ c.state = .finWait2

variable {c : Closing}

variable (h : c.Deaf)
include h

theorem Deaf.onFinSent : c.onFinSent.Deaf := by
  unfold Closing.onFinSent
  split
  · exact h
  · rcases h with h | h | h <;> simp [Deaf,h]

theorem Deaf.onFinAcknowledged (now : Nat) : (c.onFinAcknowledged now).Deaf := by
  unfold Closing.onFinAcknowledged
  split
  · exact h
  · rcases h with h | h | h <;> simp [Deaf,h]

theorem Deaf.tick (now : Nat) : (c.tick now).2.Deaf := by
  unfold Closing.tick
  rcases h with h | h | h <;> simp [Deaf,h]

end Closing

namespace TcpConn

def opening (c : TcpConn) : Bool := c.state == .synSent || c.state == .synRcvd

/-- Unless its handshake was under way, the block is still past it, and its queue goes on. -/
def Goes (c c' : TcpConn) : Prop :=
  (c.opening = false → c'.opening = false ∧ c.tx.Evolves c'.tx) ∧
    (c.closing.Deaf → c'.closing.Deaf)

variable {c c' : TcpConn}

theorem Goes.trans {c'' : TcpConn} (h : c.Goes c') (h' : c'.Goes c'') : c.Goes c'' := by
  refine ⟨fun hc => ?_,h'.2 ∘ h.2⟩
  obtain ⟨hc',he⟩ := h.1 hc
  obtain ⟨hc'',he'⟩ := h'.1 hc'
  exact ⟨hc'',he.trans he'⟩

theorem goes_queue (hs : c'.state = c.state) (ht : c.tx.Evolves c'.tx)
    (hc : c'.closing = c.closing) : c.Goes c' :=
  ⟨fun ho => ⟨by rw [opening,hs]; exact ho,ht⟩,fun h => hc ▸ h⟩

theorem goes_of_eq (hs : c'.state = c.state) (ht : c'.tx = c.tx)
    (hc : c'.closing = c.closing) : c.Goes c' :=
  goes_queue hs (ht ▸ refl _) hc

theorem Goes.refl (c : TcpConn) : c.Goes c := goes_of_eq rfl rfl rfl

theorem goes_closed (hs : c'.state = .closed) (ht : c'.tx = c.tx)
    (hc : c'.closing = c.closing) : c.Goes c' :=
  ⟨fun _ => ⟨by simp [opening,hs],ht ▸ refl _⟩,fun h => hc ▸ h⟩

section

variable (c : TcpConn)

theorem goes_onTcpAck (now : Nat) (segAck : Seq) (rawWindow : Nat) :
    c.Goes (c.onTcpAck now segAck rawWindow) := by
  have hack := c.tx.evolves_onAck segAck
  unfold onTcpAck
  dsimp only
  split
  · next covered _ =>
    have hclosing : c.closing.Deaf → (if covered = true then c.closing.onFinAcknowledged now
        else c.closing).Deaf := by
      split
      · exact fun h => h.onFinAcknowledged now
      · exact id
    unfold onAdvanced
    dsimp only
    split <;> exact ⟨fun ho => ⟨ho,hack⟩,hclosing⟩
  · split
    · exact goes_queue rfl (hack.trans (SendQueue.evolves_rewind _)) rfl
    · exact goes_queue rfl hack rfl
  · exact goes_queue rfl hack rfl
  · exact goes_queue rfl hack rfl

theorem goes_receiveSegment (now : Nat) (tcp : List UInt8) :
    c.Goes (c.receiveSegment now tcp).2 := by
  obtain ⟨c',hacked,heq⟩ := c.receiveSegment_acked now tcp
  have hgoes : c.Goes c' := by
    rcases hacked with rfl | rfl
    · exact Goes.refl c'
    · exact c.goes_onTcpAck _ _ _
  rw [heq]
  unfold receiveFin receiveData
  split <;> split <;> exact hgoes.trans (goes_of_eq rfl rfl rfl)

theorem goes_withdrawn (id : Nat) : c.Goes (c.withdrawn id) := by
  unfold withdrawn
  split
  · exact goes_closed rfl rfl rfl
  · exact Goes.refl c

theorem goes_invalidated (gone : Local) : c.Goes (c.invalidated gone) := by
  unfold invalidated
  split
  · exact Goes.refl c
  split
  · exact goes_of_eq rfl rfl rfl
  · exact goes_of_eq rfl rfl rfl
  · next hst => exact ⟨fun hc => by simp [opening,hst] at hc,id⟩
  · next hst => exact ⟨fun hc => by simp [opening,hst] at hc,id⟩
  · exact Goes.refl c

theorem goes_lowerMss (mss : Nat) : c.Goes (c.lowerMss mss).2 := by
  unfold lowerMss
  split
  · exact Goes.refl c
  · exact goes_queue rfl (SendQueue.evolves_rewind _) rfl

theorem block_lowerMss (mss : Nat) : (c.lowerMss mss).2.block = c.block := by
  unfold lowerMss
  split <;> rfl

theorem goes_pumped (now : Nat) (fin : Bool) (flight : Seq) : c.Goes (c.pumped now fin flight) := by
  have hsent : c.Goes { c with closing := c.closing.onFinSent } :=
    ⟨fun ho => ⟨ho,refl _⟩,Closing.Deaf.onFinSent⟩
  unfold pumped
  cases fin with
  | false => dsimp only; split <;> exact goes_of_eq rfl rfl rfl
  | true => dsimp only; split <;> exact hsent.trans (goes_of_eq rfl rfl rfl)

end

end TcpConn

namespace Stack

def Goes (s s' : Stack) : Prop := ∀ cj, (s.conn cj).Goes (s'.conn cj)

variable {s s' : Stack} {ci : Nat}

theorem Goes.refl (s : Stack) : s.Goes s := fun _ => TcpConn.Goes.refl _

variable {s'' : Stack} {f : TcpConn → TcpConn} {flags : UInt8} {below : Below}

theorem Goes.trans (h : s.Goes s') (h' : s'.Goes s'') : s.Goes s'' := fun cj => (h cj).trans (h' cj)

theorem goes_update_at
    (hf : ci < s.conns.length → (s.conn ci).Goes (f (s.conn ci))) : s.Goes (s.update ci f) := by
  intro cj
  by_cases hcj : cj = ci
  · subst hcj
    by_cases hlt : cj < s.conns.length
    · rw [conn_update_self hlt]
      exact hf hlt
    have hnone : (s.update cj f).conn cj = s.conn cj := by
      simp [conn,update,getD_eq_getElem?_getD,Nat.not_lt.mp hlt]
    rw [hnone]
    exact TcpConn.Goes.refl _
  · rw [conn_update_ne hcj]
    exact TcpConn.Goes.refl _

theorem goes_update (hf : ∀ c : TcpConn, c.Goes (f c)) : s.Goes (s.update ci f) :=
  goes_update_at fun _ => hf _

theorem goes_map (hf : ∀ c : TcpConn, c.Goes (f c)) : s.Goes { s with conns := s.conns.map f } := by
  intro cj
  simp only [conn,getD_eq_getElem?_getD,getElem?_map]
  cases s.conns[cj]? with
  | none => exact TcpConn.Goes.refl _
  | some c => exact hf c

theorem goes_emitTcp (s : Stack) (ci : Nat) (flags : UInt8) (seq ack : Seq)
    (opts payload : List UInt8) (below : Below) :
    s.Goes (s.emitTcp ci flags seq ack opts payload below).2.2 := by
  obtain ⟨move,hmove⟩ := emitTcp_eq_update s ci flags seq ack opts payload below
  rw [hmove]
  exact goes_update fun _ => goes_of_eq rfl rfl rfl

theorem Goes.emit (h : s.Goes s') {seq ack : Seq} {opts payload : List UInt8} : s.Goes
    (s'.emitTcp ci flags seq ack opts payload below).2.2 :=
  h.trans (goes_emitTcp s' ci flags seq ack opts payload below)

/-- The call is the event for the pool, and every block goes on. -/
def Works (s : Stack) (event : Event) (s' : Stack) : Prop :=
  s'.pool = s.pool.apply event ∧ s.Goes s'

theorem Works.refl (s : Stack) : s.Works .idle s := ⟨rfl,Goes.refl s⟩

theorem Works.trans {event : Event} (h : s.Works .idle s') (h' : s'.Works event s'') :
    s.Works event s'' :=
  ⟨h'.1.trans (congrArg (Pool.apply · event) h.1),h.2.trans h'.2⟩

theorem works_update (hci : ci < s.conns.length)
    (hb : (f (s.conn ci)).block = (s.conn ci).block) (hf : (s.conn ci).Goes (f (s.conn ci))) :
    s.Works .idle (s.update ci f) :=
  ⟨pool_update_idle hci hb,goes_update_at fun _ => hf⟩

theorem Works.emit (h : s.Works .idle s') (hci : ci < s'.conns.length) {seq ack : Seq}
    {opts payload : List UInt8} :
    s.Works .idle (s'.emitTcp ci flags seq ack opts payload below).2.2 :=
  h.trans ⟨pool_emitTcp hci flags seq ack opts payload below,(Goes.refl s').emit⟩

theorem works_map (hb : ∀ c : TcpConn, (f c).block = c.block) (hf : ∀ c : TcpConn, c.Goes (f c)) :
    s.Works .idle { s with conns := s.conns.map f } := by
  refine ⟨?_,goes_map hf⟩
  simp only [pool,Pool.apply,map_map,Function.comp_def,hb]

section

variable (s : Stack)

theorem goes_tcpAlloc : s.Goes s.tcpAlloc.2 := by
  unfold tcpAlloc
  split
  · exact goes_update fun _ => goes_closed rfl rfl rfl
  intro cj
  simp only [conn,getD_eq_getElem?_getD,getElem?_append]
  split
  · exact TcpConn.Goes.refl _
  next hge =>
  rw [getElem?_eq_none (Nat.not_lt.mp hge)]
  cases cj - s.conns.length with
  | zero => exact goes_closed rfl rfl rfl
  | succ n => exact TcpConn.Goes.refl _

theorem works_tcpOpenOutbound : s.Works .openOutbound s.tcpOpenOutbound.2 := by
  have hadm : s.pool.admission = s.admission := rfl
  unfold tcpOpenOutbound Works Pool.apply Pool.openOutbound
  dsimp only
  rw [hadm]
  rcases s.admission.openOutbound with ⟨⟨⟩ | ⟨⟩,a⟩
  · exact ⟨rfl,Goes.refl s⟩
  obtain ⟨hidx,hpool⟩ := pool_tcpAlloc { s with admission := a }
  refine ⟨?_,(goes_tcpAlloc { s with admission := a }).trans
    (goes_update fun _ => goes_of_eq rfl rfl rfl)⟩
  rw [pool_update (g := fun b => { b with listener := 0 }) fun _ => rfl,hpool,hidx]
  rfl

theorem works_onEstablished (hci : ci < s.conns.length) (tcp : List UInt8) (below : Below) :
    s.Works .idle (s.onEstablished ci tcp below).2 := by
  obtain ⟨b,heq⟩ := s.onEstablished_eq ci tcp below
  obtain ⟨_,_,_,_,_,_,_,_,_,_,_,hframe⟩ := (s.conn ci).receiveSegment_eq s.clockMs tcp
  rw [heq]
  refine works_update hci ?_ ((goes_receiveSegment _ _ _).trans (goes_of_eq rfl rfl rfl))
  rw [hframe]
  rfl

theorem works_tcpFree (hci : ci < s.conns.length) : s.Works (.free ci) (s.tcpFree ci) := by
  have huse : (s.conn ci).block.inUse = (s.conn ci).inUse := rfl
  unfold tcpFree Works Pool.apply Pool.free
  dsimp only
  rw [pool_block hci,huse]
  split
  · exact Works.refl s
  · exact ⟨pool_update fun _ => rfl,goes_update fun _ => goes_closed rfl rfl rfl⟩

theorem works_unlisten (id : Nat) : s.Works (.unlisten id) (s.unlisten id) := by
  have hlis : s.pool.listeners = s.listeners := rfl
  unfold unlisten Works Pool.apply Pool.unlisten
  dsimp only
  rw [hlis]
  rcases s.listeners.unbind id with ⟨⟨⟩ | ⟨⟩,listeners⟩
  · exact ⟨rfl,Goes.refl s⟩
  · refine ⟨?_,goes_map fun c => c.goes_withdrawn id⟩
    simp only [pool,map_map,Function.comp_def,block_withdrawn]

theorem works_onAddressInvalidated (address : BitVec 128) :
    s.Works (.invalidate address) (s.onAddressInvalidated address) := by
  have hfold : ∀ (ids : List Nat) (s : Stack), (ids.foldl unlisten s).pool =
      ids.foldl Pool.unlisten s.pool ∧ s.Goes (ids.foldl unlisten s) := by
    intro ids
    induction ids with
    | nil => exact fun s => ⟨rfl,Goes.refl s⟩
    | cons id rest ih =>
      intro s
      obtain ⟨hpool,hgoes⟩ := s.works_unlisten id
      rw [foldl_cons,foldl_cons]
      exact ⟨(ih _).1.trans (congrArg (rest.foldl Pool.unlisten) hpool),hgoes.trans (ih _).2⟩
  refine ⟨?_,(hfold _ s).2.trans (goes_map fun c => c.goes_invalidated _)⟩
  unfold onAddressInvalidated Pool.apply Pool.invalidate
  dsimp only
  rw [← (hfold (s.pool.boundTo _) s).1]
  simp only [pool,map_map,Function.comp_def,block_invalidated]
  rfl

theorem works_listen (binding : Binding) (effective : Nat) :
    s.Works (.listen binding effective) (s.listen binding effective).2 := by
  have hlis : s.pool.listeners = s.listeners := rfl
  unfold listen Works Pool.apply Pool.listen
  dsimp only
  rw [hlis]
  cases s.listeners.bind binding with
  | error | ok => exact ⟨rfl,Goes.refl s⟩

theorem works_takeAccepted (port : Nat) :
    (s.takeAccepted port).1 = s.pool.next port ∧ s.Works (.take port) (s.takeAccepted port).2 := by
  have hnext : s.pool.next port = s.conns.findIdx? fun c =>
      c.inUse && c.pendingAccept && c.localPort == port && c.state == .established := by
    simp [Pool.next,pool,findIdx?_map,Function.comp_def,block]
  unfold takeAccepted Works Pool.apply Pool.take
  dsimp only
  rw [hnext]
  cases s.conns.findIdx? fun c =>
      c.inUse && c.pendingAccept && c.localPort == port && c.state == .established with
  | none => exact ⟨rfl,Works.refl s⟩
  | some i =>
    exact ⟨rfl,pool_update fun _ => rfl,goes_update fun _ => goes_of_eq rfl rfl rfl⟩

theorem works_tcpCloseHalf (ci : Nat) :
    s.Works (if (s.conn ci).tx.finQueued then .idle else .closeHalf ci) (s.tcpCloseHalf ci) := by
  have hfin := (s.conn ci).tx.evolves_queueFin
  unfold tcpCloseHalf SendQueue.queueFin
  cases hqueued : (s.conn ci).tx.finQueued with
  | true => exact Works.refl s
  | false =>
    rw [SendQueue.queueFin,hqueued] at hfin
    exact ⟨pool_update fun _ => rfl,goes_update_at fun _ => ⟨fun _ => ⟨rfl,hfin⟩,id⟩⟩

section

variable {s}

variable (hci : ci < s.conns.length)
include hci

theorem works_tcpPump (below : Below) : s.Works .idle (s.tcpPump ci below).2 := by
  unfold tcpPump
  dsimp only
  split
  · exact Works.refl s
  split
  · next persist _ =>
    have hfired : s.Works .idle (s.update ci fun c => { c with persist := persist }) :=
      works_update hci rfl (goes_of_eq rfl rfl rfl)
    unfold pumpProbe
    dsimp only
    split
    · exact hfired
    · exact hfired.emit (by simpa using hci)
  split
  · have hdue : s.Works .idle (s.update ci fun c => { c with synAckDue := false }) :=
      works_update hci rfl (goes_of_eq rfl rfl rfl)
    exact hdue.emit (by simpa using hci)
  have hnext := (s.conn ci).tx.evolves_nextSegment (s.conn ci).effectiveMss
    ((s.conn ci).cwnd.usable (s.conn ci).tx.flight.toNat (s.conn ci).peerWindow)
  unfold pumpQueue
  dsimp only
  split
  · exact Works.refl s
  next segment tx heq =>
  rw [heq] at hnext
  have hqueue : s.Works .idle (s.update ci fun c => { c with tx := tx }) :=
    works_update hci rfl (goes_queue rfl hnext rfl)
  generalize (if segment.fin then tcpFin ||| tcpAck else tcpPsh ||| tcpAck) = flags
  split
  · exact hqueue.emit (by simpa using hci)
  · exact (hqueue.emit (by simpa using hci)).trans (works_update (by simpa using hci)
      (block_pumped _ _ _ _) (goes_pumped _ _ _ _))

/-- The timer of a half-open connection expires it; that of a sender can give up. -/
theorem works_tcpOnTimer : s.Works (s.timerEvent ci) (s.tcpOnTimer ci) := by
  unfold tcpOnTimer timerEvent
  dsimp only
  split
  · exact Works.refl s
  have hdeaf := fun h : (s.conn ci).closing.Deaf => h.tick s.clockMs
  generalize (s.conn ci).closing.tick s.clockMs = ticked at hdeaf ⊢
  have htick : s.Works .idle (s.update ci fun c => { c with closing := ticked.2 }) :=
    works_update hci rfl ⟨fun ho => ⟨ho,refl _⟩,hdeaf⟩
  split
  · exact htick.trans ⟨pool_update fun _ => rfl,goes_update fun _ => goes_closed rfl rfl rfl⟩
  cases (s.conn ci).rtoDeadlineMs with
  | none => exact htick
  | some deadline =>
    dsimp only
    split
    · exact htick
    have hback : s.Works .idle ((s.update ci fun c => { c with closing := ticked.2 }).update ci
        fun c => { c with rto := c.rto.backOff }) :=
      htick.trans (works_update (by simpa using hci) rfl (goes_of_eq rfl rfl rfl))
    unfold onSynAckTimer onDataTimer
    dsimp only
    rw [conn_update_self (by simpa using hci),conn_update_self hci]
    split
    · split
      · exact hback.trans (works_tcpFree _ (by simpa using hci))
      · exact hback.trans (works_update (by simpa using hci) rfl (goes_of_eq rfl rfl rfl))
    · split
      · exact hback.trans ⟨pool_update fun _ => rfl,goes_update fun _ => goes_closed rfl rfl rfl⟩
      · exact hback.trans (works_update (by simpa using hci) rfl
          (goes_queue rfl (SendQueue.evolves_rewind _) rfl))

theorem works_windowUpdate (below : Below) : s.Works .idle (s.tcpBuildWindowUpdate ci below).2 := by
  unfold tcpBuildWindowUpdate
  dsimp only
  split
  · exact Works.refl s
  · exact (Works.refl s).emit hci

end

theorem works_tcpOnPathMtu (ip : BitVec 32) (mtu : Nat) :
    s.Works .idle (s.tcpOnPathMtu ip mtu) := by
  refine works_map (fun c => ?_) fun c => ?_ <;> split
  · exact c.block_lowerMss _
  · rfl
  · exact c.goes_lowerMss _
  · exact TcpConn.Goes.refl c

theorem works_applyIpv6Completion (token : Nat) (reached : Bool) :
    s.Works .idle (s.applyIpv6Completion token reached) := by
  have hmap : ∀ (move : TransmitBound → Option TransmitBound) (conns : List TcpConn),
      (applyCompletion move conns).map block = conns.map block ∧
        ∀ cj, (conns.getD cj .closed).Goes ((applyCompletion move conns).getD cj .closed) := by
    intro move conns
    induction conns with
    | nil => exact ⟨rfl,fun _ => TcpConn.Goes.refl _⟩
    | cons c rest ih =>
      unfold applyCompletion
      split
      · refine ⟨rfl,fun cj => ?_⟩
        cases cj with
        | zero => exact goes_of_eq rfl rfl rfl
        | succ cj => exact TcpConn.Goes.refl _
      · refine ⟨by rw [map_cons,map_cons,ih.1],fun cj => ?_⟩
        cases cj with
        | zero => exact TcpConn.Goes.refl _
        | succ cj => exact ih.2 cj
  refine ⟨?_,(hmap _ _).2⟩
  simp only [applyIpv6Completion,pool,(hmap _ _).1]
  rfl

end

/-! ## Blocks that start anew -/

def GoesBut (ci : Nat) (s s' : Stack) : Prop :=
  ((s.conn ci).closing.Deaf → (s'.conn ci).closing.Deaf) ∧
    ∀ cj, cj ≠ ci → (s.conn cj).Goes (s'.conn cj)

theorem GoesBut.trans (h : GoesBut ci s s') (h' : s'.Goes s'') : GoesBut ci s s'' :=
  ⟨(h' ci).2 ∘ h.1,fun cj hcj => (h.2 cj hcj).trans (h' cj)⟩

theorem goesBut_update (hci : ci < s.conns.length)
    (hf : (s.conn ci).closing.Deaf → (f (s.conn ci)).closing.Deaf) :
    GoesBut ci s (s.update ci f) := by
  refine ⟨?_,fun cj hcj => ?_⟩
  · rw [conn_update_self hci]
    exact hf
  · rw [conn_update_ne hcj]
    exact TcpConn.Goes.refl _

def Starts (ci : Nat) (first : Seq) (s : Stack) : Prop :=
  (s.conn ci).opening = false ∧ (SendQueue.new first).Evolves (s.conn ci).tx

theorem Starts.goes {first : Seq} (h : Starts ci first s) (h' : s.Goes s') :
    Starts ci first s' := by
  obtain ⟨hopen,htx⟩ := (h' ci).1 h.1
  exact ⟨hopen,h.2.trans htx⟩

theorem tcpAlloc_admission (s : Stack) (a : Admission) :
    ({ s with admission := a } : Stack).tcpAlloc.1 = s.tcpAlloc.1 := by
  unfold tcpAlloc
  dsimp only
  split <;> rfl

theorem works_passiveOpen (s : Stack) (listener : Nat) (remote addr : Local)
    (srcPort dstPort : Nat) (segSeq : Seq) (peerWs : Bool) (peerMss : Nat) (below : Below) :
    let s' := (s.passiveOpen listener remote addr srcPort dstPort segSeq peerWs peerMss below).2
    s'.pool = s.pool.passiveOpen listener addr dstPort ∧
      match (s.admission.admitSyn listener).1 with
      | .error _ => s.Goes s'
      | .ok _ => GoesBut s.tcpAlloc.1 s s' := by
  have hadm : s.pool.admission = s.admission := rfl
  unfold passiveOpen Pool.passiveOpen
  rw [hadm]
  rcases s.admission.admitSyn listener with ⟨⟨⟩ | ⟨⟩,a⟩
  · exact ⟨rfl,Goes.refl s⟩
  obtain ⟨hidx,hpool⟩ := pool_tcpAlloc { s with admission := a }
  have halloc := goes_tcpAlloc { s with admission := a }
  have hlt := tcpAlloc_lt { s with admission := a }
  rw [← tcpAlloc_admission s a]
  dsimp only
  generalize ({ s with admission := a } : Stack).tcpAlloc = r at hidx hpool halloc hlt ⊢
  obtain ⟨ci,t⟩ := r
  generalize t.nextIss + 0x1000 = nextIss
  have htaken : GoesBut ci s ({ t with nextIss := nextIss }.update ci
      (·.admitted listener remote addr srcPort dstPort segSeq t.nextIss peerWs peerMss)) := by
    obtain ⟨hdeaf,hrest⟩ := goesBut_update hlt
      (f := (·.admitted listener remote addr srcPort dstPort segSeq t.nextIss peerWs peerMss)) id
    exact ⟨hdeaf ∘ (halloc ci).2,fun cj hcj => (halloc cj).trans (hrest cj hcj)⟩
  refine ⟨?_,htaken.trans ((Goes.refl _).emit.trans (goes_update fun _ => goes_of_eq rfl rfl rfl))⟩
  refine (pool_update_idle (by rw [length_emitTcp,length_update]; exact hlt) rfl).trans ?_
  rw [pool_emitTcp (by rw [length_update]; exact hlt),
    pool_update (g := Block.admitted listener addr dstPort) fun _ => rfl]
  rw [pool_nextIss,hpool,hidx]
  rfl

/-- A segment that completes a handshake starts the queue of its block; any other segment
for a connection lets every queue go on. -/
def SegmentGoes (s s' : Stack) : Event → Prop
  | .establish ci | .complete ci => GoesBut ci s s' ∧ Starts ci (s.conn ci).sndNxt s'
  | _ => s.Goes s'

theorem works_onConnSegment (hci : ci < s.conns.length) (tcp : List UInt8) (below : Below) :
    (s.onConnSegment ci tcp below).2.pool = s.pool.apply (s.connEvent ci tcp) ∧
      SegmentGoes s (s.onConnSegment ci tcp below).2 (s.connEvent ci tcp) := by
  unfold onConnSegment connEvent
  dsimp only
  split
  · exact Works.refl s
  split
  · exact ⟨pool_update fun _ => rfl,goes_update fun _ => goes_closed rfl rfl rfl⟩
  cases hst : (s.conn ci).state with
  | synSent =>
    unfold onSynSent
    dsimp only
    split
    · have hstarts : Starts ci (s.conn ci).sndNxt (s.update ci (·.answered s.mtu tcp)) := by
        rw [Starts,conn_update_self hci]
        exact ⟨rfl,refl _⟩
      refine ⟨?_,(goesBut_update hci fun _ => .inl rfl).trans (Goes.refl _).emit,
        hstarts.goes (Goes.refl _).emit⟩
      rw [pool_emitTcp (by simpa using hci)]
      exact pool_update fun _ => rfl
    · exact Works.refl s
  | synRcvd =>
    dsimp only
    split
    · have hbut : GoesBut ci s (s.completePassive ci tcp) := goesBut_update hci fun _ => .inl rfl
      have hstarts : Starts ci (s.conn ci).sndNxt (s.completePassive ci tcp) := by
        rw [Starts,completePassive,conn_update_self (by exact hci)]
        exact ⟨rfl,refl _⟩
      obtain ⟨hpool,hdata⟩ := (s.completePassive ci tcp).works_onEstablished
        (by simpa [completePassive] using hci) tcp below
      exact ⟨hpool.trans (pool_completePassive hci tcp),hbut.trans hdata,hstarts.goes hdata⟩
    · exact Works.refl s
  | closed | established | finWait => exact works_onEstablished s hci tcp below

theorem pool_onTcpSegment (s : Stack) (remote addr : Local) (tcp : List UInt8) (below : Below) :
    (s.onTcpSegment remote addr tcp below).2.pool
      = s.pool.apply (s.segmentEvent remote addr tcp) := by
  unfold onTcpSegment segmentEvent
  dsimp only
  split
  · rfl
  cases hfind : s.findConn remote (be16 tcp 0) addr (be16 tcp 2) with
  | some ci => exact (works_onConnSegment (findConn_lt hfind) tcp below).1
  | none =>
    dsimp only
    split
    · cases s.listenerFor addr (be16 tcp 2) with
      | none => rfl
      | some listener => exact (s.works_passiveOpen listener remote addr _ _ _ _ _ below).1
    · rfl

theorem goes_onTcpSegment (s : Stack) (remote addr : Local) (tcp : List UInt8) (below : Below) :
    match s.opens remote addr tcp with
    | some (ci, _) => GoesBut ci s (s.onTcpSegment remote addr tcp below).2
    | none => SegmentGoes s (s.onTcpSegment remote addr tcp below).2
        (s.segmentEvent remote addr tcp) := by
  by_cases hlen : tcp.length < tcpHdr
  · simp only [opens,segmentEvent,onTcpSegment,hlen,if_true]
    exact Goes.refl s
  cases hfind : s.findConn remote (be16 tcp 0) addr (be16 tcp 2) with
  | some ci =>
    have hconn := (works_onConnSegment (findConn_lt hfind) tcp below).2
    simp only [opens,segmentEvent,onTcpSegment,hlen,if_false,hfind]
    generalize s.connEvent ci tcp = event at hconn ⊢
    cases event with
    | passiveOpen listener addr port =>
      dsimp only
      rcases s.admission.admitSyn listener with ⟨⟨⟩ | ⟨⟩,a⟩
      · exact hconn
      · exact ⟨(hconn _).2,fun cj _ => hconn cj⟩
    | _ => exact hconn
  | none =>
    simp only [opens,segmentEvent,onTcpSegment,hlen,if_false,hfind]
    by_cases hsyn : (hasFlag (segFlags tcp) tcpSyn && !hasFlag (segFlags tcp) tcpAck) = true
    · cases s.listenerFor addr (be16 tcp 2) with
      | none =>
        simp only [hsyn,if_true]
        exact Goes.refl s
      | some listener =>
        have hopen := (s.works_passiveOpen listener remote addr (be16 tcp 0) (be16 tcp 2)
          (be32 tcp 4) (peerOffersWs tcp) (peerMssOption tcp) below).2
        simp only [hsyn,if_true]
        generalize (s.passiveOpen listener remote addr (be16 tcp 0) (be16 tcp 2) (be32 tcp 4)
          (peerOffersWs tcp) (peerMssOption tcp) below).2 = s' at hopen ⊢
        rcases hadm : s.admission.admitSyn listener with ⟨⟨⟩ | ⟨⟩,a⟩
        · rw [hadm] at hopen
          exact hopen
        · rw [hadm] at hopen
          exact hopen
    · simp only [hsyn]
      exact Goes.refl s

/-- The block whose queue a call starts anew, drops or writes to. -/
def renews (s : Stack) : Op → Option Nat
  | .open4 ci _ _ _ _ | .reset ci | .send ci _ _ | .open6 ci _ _ _ _ (some _) => some ci
  | .segment remote addr tcp _ =>
    match s.opens remote addr tcp with
    | some (ci, _) => some ci
    | none =>
      match s.segmentEvent remote addr tcp with
      | .establish ci | .complete ci => some ci
      | _ => none
  | _ => none

/-- Every call is its event for the pool, and every block goes on but one that is renewed. -/
theorem works_exec {op : Op} {out : Out} (h : s.exec op = some (out, s')) :
    s'.pool = s.pool.apply (s.event op) ∧
      match s.renews op with | some ci => GoesBut ci s s' | none => s.Goes s' := by
  -- a call that names a block is possible only for a block of the pool
  cases op <;> first | cases h | (obtain ⟨hci,heq⟩ := onBlock_eq_some h; cases heq)
  case setClock now => exact Works.refl s
  case alloc => exact ⟨(pool_tcpAlloc s).2,goes_tcpAlloc s⟩
  case openOutbound => exact works_tcpOpenOutbound s
  case segment remote addr tcp below =>
    refine ⟨pool_onTcpSegment s remote addr tcp below,?_⟩
    have hseg := s.goes_onTcpSegment remote addr tcp below
    unfold renews
    dsimp only
    generalize (s.onTcpSegment remote addr tcp below).2 = s' at hseg ⊢
    cases hopens : s.opens remote addr tcp with
    | some opened =>
      rw [hopens] at hseg
      exact hseg
    | none =>
      rw [hopens] at hseg
      generalize s.segmentEvent remote addr tcp = event at hseg ⊢
      cases event with
      | establish ci | complete ci => exact hseg.1
      | _ => exact hseg
  case listen binding effective => exact works_listen s binding effective
  case unlisten id => exact works_unlisten s id
  case takeAccepted port => exact (works_takeAccepted s port).2
  case invalidate address => exact works_onAddressInvalidated s address
  case pathMtu4 ip mtu => exact works_tcpOnPathMtu s ip mtu
  case completion token reached => exact works_applyIpv6Completion s token reached
  case open4 ci ip port localPort iss => exact ⟨pool_update fun _ => rfl,goesBut_update hci id⟩
  case reset ci => exact ⟨pool_update fun _ => rfl,goesBut_update hci id⟩
  case open6 ci peer port localPort iss selected =>
    cases selected with
    | none => exact Works.refl s
    | some source => exact ⟨pool_update fun _ => rfl,goesBut_update hci id⟩
  case buildSyn ci below => exact (Works.refl s).emit hci
  case send ci data room =>
    show (s.tcpSend ci data room).2.pool = s.pool ∧ GoesBut ci s (s.tcpSend ci data room).2
    unfold tcpSend
    dsimp only
    split
    · exact ⟨rfl,id,fun _ _ => TcpConn.Goes.refl _⟩
    · exact ⟨pool_update_idle hci rfl,goesBut_update hci id⟩
  case closeHalf ci => exact works_tcpCloseHalf s ci
  case pump ci below => exact works_tcpPump hci below
  case onTimer ci => exact works_tcpOnTimer hci
  case free ci => exact works_tcpFree s hci
  case accepted ci => exact ⟨pool_accepted hci,Goes.refl s⟩
  case takeRxAll ci => exact works_update hci rfl (goes_of_eq rfl rfl rfl)
  case windowUpdate ci below => exact works_windowUpdate hci below
  case pathMtu6 ci mtu =>
    exact works_update hci (block_lowerMss _ _) (goes_lowerMss _ _)

end Stack

end LiberSystem.Net
