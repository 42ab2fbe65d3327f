import LiberSystem.Net.Blocks

/-!
# Whose bytes a connection sends

A control block serves one connection after another, and its transmit queue is replaced only when a
handshake completes.
-/

namespace LiberSystem.Net

open Option List

/-- The connection of a control block: what was accepted for it since its open, how much
of that before the handshake completed, and the sequence number of its queue's first
byte. Before the handshake the connection has no queue. -/
structure Line where
  sent : List UInt8
  before : Nat
  first : Option Seq
deriving DecidableEq, Repr

namespace Line

def opened : Line := ⟨[],0,none⟩

variable (l : Line)

def started (first : Seq) : Line :=
  { l with before := l.sent.length, first := some first }

def accepted (data : List UInt8) : Line := { l with sent := l.sent ++ data }

def dropped : Line := { l with first := none }

/-- Every payload byte was accepted since the open, and stands at the sequence number
that the queue of the open gave it. -/
def Carries (frame : TcpFrame) : Prop :=
  ∀ i byte, frame.payload[i]? = some byte →
    ∃ first k, l.first = some first ∧ l.sent[l.before + k]? = some byte ∧
      frame.seq + BitVec.ofNat 32 i = first + BitVec.ofNat 32 k

end Line

/-- The stack, the connection of every block, and the segments the pump has built, each
with the connection it was built for. -/
structure Sending where
  stack : Stack
  line : Nat → Line
  pumped : List (Line × TcpFrame)

namespace Sending

variable (g : Sending)

def lines (out : Out) : Op → Nat → Line
  | .send ci data _ => Function.update g.line ci ((g.line ci).accepted (data.take out.taken))
  | .open4 ci _ _ _ _ => Function.update g.line ci .opened
  | .open6 ci _ _ _ _ selected =>
    match selected with
    | some _ => Function.update g.line ci .opened
    | none => g.line
  | .reset ci => Function.update g.line ci (g.line ci).dropped
  | .segment remote addr tcp _ =>
    match g.stack.opens remote addr tcp with
    | some (ci, _) => Function.update g.line ci .opened
    | none =>
      match g.stack.segmentEvent remote addr tcp with
      | .establish ci | .complete ci =>
        Function.update g.line ci ((g.line ci).started (g.stack.conn ci).sndNxt)
      | _ => g.line
  | _ => g.line

def frames (out : Out) : Op → List (Line × TcpFrame)
  | .pump ci _ => g.pumped ++ (out.frame.map (g.line ci, ·)).toList
  | _ => g.pumped

def step (op : Op) : Option Sending :=
  (g.stack.exec op).map fun (out, stack) => ⟨stack,g.lines out op,g.frames out op⟩

def start (raw : Bool) (ip : BitVec 32) (mtu : Nat) : Sending :=
  ⟨Stack.new raw ip mtu,fun _ => .opened,[]⟩

/-- A block is pumped only when its queue is that of its open, or holds no byte. -/
def OwnQueue : Op → Prop
  | .pump ci _ => (g.line ci).first = none → (g.stack.conn ci).tx.bytes = []
  | _ => True

/-- Every segment pumped carries bytes of its own connection only. -/
def Isolated : Prop := ∀ e ∈ g.pumped, e.1.Carries e.2

end Sending

/-! ## What the pump sends -/

namespace Stack

variable {s : Stack} {ci : Nat} {flags : UInt8} {below : Below} {frame : TcpFrame}

theorem emitTcp_frame {seq ack : Seq} {opts payload : List UInt8}
    (h : (s.emitTcp ci flags seq ack opts payload below).2.1 = some frame) :
    frame.seq = seq ∧ frame.payload = payload := by
  unfold emitTcp at h
  dsimp only at h
  split at h
  · split at h
    · unfold buildTcpOpts at h
      dsimp only at h
      split at h
      · cases h
      · cases h
        exact ⟨rfl,rfl⟩
    · cases h
  · cases h
  · split at h
    · cases h
      exact ⟨rfl,rfl⟩
    · cases h
      exact ⟨rfl,rfl⟩
    · cases h
      exact ⟨rfl,rfl⟩

/-- A pumped segment carries no byte, or those the queue has next. -/
theorem tcpPump_frame (hci : ci < s.conns.length) (h : (s.tcpPump ci below).1 = some frame) :
    frame.payload = [] ∨ frame.seq = (s.conn ci).tx.sndNxt ∧
      ∃ n, frame.payload = ((s.conn ci).tx.bytes.drop (s.conn ci).tx.flight.toNat).take n := by
  unfold tcpPump at h
  dsimp only at h
  split at h
  · cases h
  split at h
  · unfold pumpProbe at h
    rw [conn_update_self hci] at h
    dsimp only at h
    split at h
    · cases h
    next byte hbyte =>
    obtain ⟨hseq,hpayload⟩ := emitTcp_frame h
    refine .inr ⟨hseq,1,?_⟩
    obtain ⟨hlt,rfl⟩ := List.getElem?_eq_some_iff.mp hbyte
    rw [hpayload,List.drop_eq_getElem_cons]
    rfl
  split at h
  · exact .inl (emitTcp_frame h).2
  unfold pumpQueue at h
  dsimp only at h
  split at h
  · cases h
  next segment tx heq =>
  obtain ⟨hsequence,hoffset,-,-,-,hq⟩ := SendQueue.nextSegment_eq_some heq
  generalize (if segment.fin then tcpFin ||| tcpAck else tcpPsh ||| tcpAck) = flags at h
  have hframe : ((s.update ci fun c => { c with tx := tx }).emitTcp ci flags segment.sequence
      (s.conn ci).rcvNxt [] ((tx.bytes.drop segment.offset).take segment.len) below).2.1
        = some frame := by
    split at h <;> exact h
  obtain ⟨hseq,hpayload⟩ := emitTcp_frame hframe
  exact .inr ⟨hseq.trans hsequence,segment.len,by rw [hpayload,hq,hoffset]⟩

end Stack

/-! ## The run -/

namespace Line

/-- The connection's queue, if it has one, holds the rest of what was accepted for it. -/
def Tells (l : Line) (c : TcpConn) : Prop :=
  ∀ first, l.first = some first → c.opening = false ∧ l.before ≤ l.sent.length ∧
    ∃ retired, Window first (l.sent.drop l.before) c.tx retired

variable {l : Line} {c c' : TcpConn}

theorem tells_of_none (h : l.first = none) : l.Tells c := by
  intro first hfirst
  rw [h] at hfirst
  cases hfirst

theorem Tells.goes (h : l.Tells c) (hgoes : c.Goes c') : l.Tells c' := by
  intro first hfirst
  obtain ⟨hopen,hle,retired,hw⟩ := h first hfirst
  obtain ⟨hopen',htx⟩ := hgoes.1 hopen
  obtain ⟨retired',-,hw'⟩ := htx first _ retired hw
  exact ⟨hopen',hle,retired',hw'⟩

theorem tells_started {s : Stack} {ci : Nat} {first : Seq} (h : s.Starts ci first) :
    (l.started first).Tells (s.conn ci) := by
  intro first' hfirst
  cases hfirst
  obtain ⟨retired,-,hw⟩ := h.2 first [] 0 (Window.new first)
  refine ⟨h.1,Nat.le_refl _,retired,?_⟩
  show Window first (l.sent.drop l.sent.length) _ retired
  rw [drop_length]
  exact hw

theorem Tells.carries (h : l.Tells c) (hown : l.first = none → c.tx.bytes = []) {frame : TcpFrame}
    (hframe : frame.payload = [] ∨ frame.seq = c.tx.sndNxt ∧
      ∃ n, frame.payload = (c.tx.bytes.drop c.tx.flight.toNat).take n) : l.Carries frame := by
  intro i byte hbyte
  rcases hframe with hnil | ⟨hseq,n,hpayload⟩
  · rw [hnil] at hbyte
    cases hbyte
  have hunsent : (c.tx.bytes.drop c.tx.flight.toNat)[i]? = some byte := by
    rw [hpayload,getElem?_take] at hbyte
    split at hbyte
    · exact hbyte
    · cases hbyte
  cases hfirst : l.first with
  | none =>
    rw [hown hfirst,drop_nil] at hunsent
    cases hunsent
  | some first =>
    obtain ⟨-,hle,retired,hw⟩ := h first hfirst
    obtain ⟨hstream,hnum⟩ := hw.getElem?_unsent hunsent
    rw [getElem?_drop] at hstream
    exact ⟨first,_,rfl,hstream,hseq ▸ hnum⟩

end Line

namespace Sending

open Stack

/-- Every connection's queue is its own, and so is everything pumped. -/
structure Inv (g : Sending) : Prop where
  tells : ∀ ci, (g.line ci).Tells (g.stack.conn ci)
  isolated : g.Isolated

variable {g : Sending} {ci : Nat}

variable {s' : Stack} {out : Out} {op : Op}

section

variable (hg : Inv g)
include hg

theorem tells_goes (h : g.stack.Goes s') (cj : Nat) : (g.line cj).Tells (s'.conn cj) :=
  (hg.tells cj).goes (h cj)

theorem tells_update {l : Line} (h : GoesBut ci g.stack s') (hl : l.Tells (s'.conn ci)) (cj : Nat) :
    (Function.update g.line ci l cj).Tells (s'.conn cj) := by
  by_cases hcj : cj = ci
  · subst hcj
    rw [Function.update_self]
    exact hl
  · rw [Function.update_of_ne hcj]
    exact (hg.tells cj).goes (h.2 cj hcj)

theorem tells_send (data : List UInt8) (room : Nat)
    (h : g.stack.exec (.send ci data room) = some (out, s')) :
    ((g.line ci).accepted (data.take out.taken)).Tells (s'.conn ci) := by
  obtain ⟨hci,heq⟩ := onBlock_eq_some h
  cases heq
  unfold tcpSend
  dsimp only
  split
  · simpa [Line.accepted] using hg.tells ci
  rw [conn_update_self hci]
  intro first hfirst
  obtain ⟨hopen,hle,retired,hw⟩ := hg.tells ci first hfirst
  refine ⟨hopen,?_,retired,?_⟩
  · exact Nat.le_trans hle (by simp [Line.accepted])
  · show Window first (((g.line ci).sent ++ _).drop (g.line ci).before) _ retired
    rw [drop_append_of_le_length hle]
    exact hw.accept data room

theorem tells_segment (out : Out) (remote addr : Local) (tcp : List UInt8)
    (below : Below) (cj : Nat) :
    (g.lines out (.segment remote addr tcp below) cj).Tells
      ((g.stack.onTcpSegment remote addr tcp below).2.conn cj) := by
  have hseg := g.stack.goes_onTcpSegment remote addr tcp below
  unfold lines
  dsimp only
  generalize (g.stack.onTcpSegment remote addr tcp below).2 = s' at hseg ⊢
  cases hopens : g.stack.opens remote addr tcp with
  | some opened =>
    rw [hopens] at hseg
    exact tells_update hg hseg (Line.tells_of_none rfl) cj
  | none =>
    rw [hopens] at hseg
    generalize g.stack.segmentEvent remote addr tcp = event at hseg ⊢
    cases event with
    | establish ci | complete ci => exact tells_update hg hseg.1 (Line.tells_started hseg.2) cj
    | _ => exact tells_goes hg hseg cj

theorem tells_exec (h : g.stack.exec op = some (out, s')) (cj : Nat) :
    (g.lines out op cj).Tells (s'.conn cj) := by
  have hgoes := (works_exec h).2
  cases op with
  | segment remote addr tcp below =>
    obtain ⟨-,rfl⟩ := Prod.mk.inj (some.inj h)
    exact tells_segment hg out remote addr tcp below cj
  | open4 ci ip port localPort iss | reset ci =>
    exact tells_update hg hgoes (Line.tells_of_none rfl) cj
  | open6 ci peer port localPort iss selected =>
    cases selected with
    | none => exact tells_goes hg hgoes cj
    | some source => exact tells_update hg hgoes (Line.tells_of_none rfl) cj
  | send ci data room => exact tells_update hg hgoes (tells_send hg data room h) cj
  | _ => exact tells_goes hg hgoes cj

theorem isolated_exec (hok : OwnQueue g op)
    (h : g.stack.exec op = some (out, s')) : ∀ e ∈ g.frames out op, e.1.Carries e.2 := by
  cases op with
  | pump ci below =>
    obtain ⟨hci,heq⟩ := onBlock_eq_some h
    cases heq
    refine forall_mem_append.mpr ⟨hg.isolated,fun e he => ?_⟩
    obtain ⟨frame,hframe,rfl⟩ := map_eq_some_iff.mp (mem_toList.mp he)
    exact (hg.tells ci).carries hok (tcpPump_frame hci hframe)
  | _ => exact hg.isolated

end

theorem inv_step (g : Sending) (op : Op) (g' : Sending) (hg : Inv g) (hok : OwnQueue g op)
    (hs : g.step op = some g') : Inv g' := by
  obtain ⟨⟨out,s'⟩,hexec,rfl⟩ := map_eq_some_iff.mp hs
  exact ⟨tells_exec hg hexec,isolated_exec hg hok hexec⟩

theorem inv_start (raw : Bool) (ip : BitVec 32) (mtu : Nat) : Inv (start raw ip mtu) :=
  ⟨fun _ => Line.tells_of_none rfl,nofun⟩

/-- In every run that pumps a block only when its queue is that of its open, or empty,
every payload byte pumped was accepted since the open that installed the tuple, and
stands at the sequence number the queue of that open gave it. -/
theorem isolated_of_ownQueue_run (raw : Bool) (ip : BitVec 32) (mtu : Nat) (g : Sending)
    (hrun : Reaches step OwnQueue (start raw ip mtu) g) : g.Isolated :=
  (hrun.invariant (inv_start raw ip mtu) inv_step).isolated

instance (g : Sending) (op : Op) : Decidable (OwnQueue g op) := by
  cases op <;> unfold OwnQueue <;> infer_instance

/-- A connection from `10.0.0.2` to port 80 of `peer`: the open, its answer, two bytes to
send and their segment. -/
def exchange (peer : BitVec 32) (localPort : Nat) (iss : Seq) (data : List UInt8) : List Op :=
  [.openOutbound,.open4 0 peer 80 localPort iss,.segment (.v4 peer) (.v4 0x0a000002)
      (rawSegment 80 localPort 500 (iss + 1) (tcpSyn ||| tcpAck) 4096 []) ⟨1514,.refused⟩,
    .send 0 data 4096,.pump 0 ⟨1514,.refused⟩]

/-- The block is freed with its bytes unacknowledged, and serves a second peer. -/
theorem isolated_of_ownQueue_run_reused : ∃ g,
    Reaches step OwnQueue (start false 0x0a000002 1500) g ∧
      g.pumped.map (fun e => (e.2.destination, e.2.payload))
        = [(.v4 0x0a000001, [1,2]),(.v4 0x0a000003, [3,4])] ∧ g.Isolated := by
  refine exists_reaches_imp (P := fun g => g.pumped.map (fun e => (e.2.destination, e.2.payload))
      = [(.v4 0x0a000001, [1,2]),(.v4 0x0a000003, [3,4])])
    (exchange 0x0a000001 4000 100 [1,2] ++ [.free 0] ++ exchange 0x0a000003 4001 200 [3,4])
    (by decide +kernel) fun g hreach hpumped => ?_
  exact ⟨hpumped,isolated_of_ownQueue_run false 0x0a000002 1500 g hreach⟩

/-- The block is freed with its bytes unacknowledged and opened to a second peer, and
before that one answers the timer that was left armed falls due. -/
def staleTimer : List Op :=
  exchange 0x0a000001 4000 100 [1,2] ++
    [.free 0,.openOutbound,.open4 0 0x0a000003 80 4001 200,.setClock 5000,.onTimer 0,
      .pump 0 ⟨1514,.refused⟩]

theorem staleTimer_leaks : ∃ g, runList step (start false 0x0a000002 1500) staleTimer = some g ∧
      (g.pumped.map fun e => (e.1, e.2.destination, e.2.payload))[1]?
        = some (Line.opened, .v4 0x0a000003, [1,2]) ∧ ¬ g.Isolated := by
  obtain ⟨g,hg,hpumped⟩ := exists_of_any
    (o := runList step (start false 0x0a000002 1500) staleTimer)
    (P := fun g => (g.pumped.map fun e => (e.1, e.2.destination, e.2.payload))[1]?
      = some (Line.opened, .v4 0x0a000003, [1,2])) (by decide +kernel)
  refine ⟨g,hg,hpumped,fun hiso => ?_⟩
  rw [getElem?_map] at hpumped
  obtain ⟨⟨line,frame⟩,he,heq⟩ := map_eq_some_iff.mp hpumped
  obtain ⟨rfl,-,hpayload⟩ := by simpa using heq
  obtain ⟨first,k,hfirst,-⟩ := hiso _ (mem_of_getElem? he) 0 1 (by rw [hpayload]; rfl)
  cases hfirst

end Sending

end LiberSystem.Net
