import LiberSystem.Net.StackRun

/-!
# The receive stream

What a connection has taken from its peer is a prefix of the peer's stream, whatever the network
loses, repeats, reorders or cuts differently.
-/

namespace LiberSystem.Net

open List TcpConn

open Stack

def TcpConn.buffered (c : TcpConn) : List UInt8 := c.rx.data.take c.rxLen

section

variable (stream : List UInt8) (r₀ : Seq)

/-- A segment that is not a reset and whose payload is a slice of the stream at its
sequence number, with a FIN only directly after the stream's last byte. -/
def Carries (tcp : List UInt8) : Prop :=
  hasFlag (segFlags tcp) tcpRst = false ∧
    ((tcp.drop (dataOff tcp) = [] ∧ hasFlag (segFlags tcp) tcpFin = false) ∨
      ∃ off, be32 tcp 4 = r₀ + BitVec.ofNat 32 off ∧ tcp.drop (dataOff tcp) <+: stream.drop off ∧
        off + (tcp.drop (dataOff tcp)).length ≤ stream.length ∧
        (hasFlag (segFlags tcp) tcpFin = true →
          off + (tcp.drop (dataOff tcp)).length = stream.length))

/-- The connection has taken the first `n` bytes of the stream, of which `drained` are
gone from its buffer, and after the last byte possibly the FIN. -/
structure Took (drained : List UInt8) (c : TcpConn) (n : Nat) : Prop where
  le : n ≤ stream.length
  bytes : drained ++ c.buffered = stream.take n
  written : c.rxLen ≤ c.rx.data.length
  fits : c.rxLen ≤ c.rx.size
  rcvNxt : c.rcvNxt = r₀ + BitVec.ofNat 32 (n + c.peerFin.toNat)
  fin : c.peerFin = true → n = stream.length

variable {stream r₀} {drained : List UInt8} {c c' : TcpConn} {n : Nat}

theorem Took.congr (h : Took stream r₀ drained c n) (hrx : c'.rx = c.rx)
    (hlen : c'.rxLen = c.rxLen) (hnxt : c'.rcvNxt = c.rcvNxt) (hfin : c'.peerFin = c.peerFin) :
    Took stream r₀ drained c' n where
  le := h.le
  bytes := by rw [buffered,hrx,hlen]; exact h.bytes
  written := by rw [hrx,hlen]; exact h.written
  fits := by rw [hrx,hlen]; exact h.fits
  rcvNxt := by rw [hnxt,hfin]; exact h.rcvNxt
  fin := by rw [hfin]; exact h.fin

theorem offset_inj {a b : Nat} (ha : a < 2 ^ 32) (hb : b < 2 ^ 32)
    (h : r₀ + BitVec.ofNat 32 a = r₀ + BitVec.ofNat 32 b) : a = b := by
  have h' : BitVec.ofNat 32 a = BitVec.ofNat 32 b := by simpa using h
  have hnat := congrArg BitVec.toNat h'
  rwa [BitVec.toNat_ofNat,BitVec.toNat_ofNat,Nat.mod_eq_of_lt ha,Nat.mod_eq_of_lt hb] at hnat

variable {payload : List UInt8} {off : Nat}

section

variable (hlen : stream.length < 2 ^ 31) (h : Took stream r₀ drained c n)
include hlen h

theorem Took.receiveData (hslice : payload <+: stream.drop off)
    (hoff : off + payload.length ≤ stream.length) :
    ∃ n', Took stream r₀ drained (c.receiveData (r₀ + BitVec.ofNat 32 off) payload).2 n' := by
  have hle := h.le
  unfold TcpConn.receiveData
  split
  · next hin =>
    obtain ⟨hne,hseq⟩ := hin
    have hfin01 : c.peerFin.toNat ≤ 1 := Bool.toNat_le c.peerFin
    have hn : off = n + c.peerFin.toNat := offset_inj (by omega) (by omega) (hseq.trans h.rcvNxt)
    -- after the FIN no data is at the expected sequence
    have hnofin : c.peerFin = false := by
      cases hp : c.peerFin with
      | false => rfl
      | true =>
        have hend := h.fin hp
        simp only [hp,Bool.toNat_true] at hn
        omega
    simp only [hnofin,Bool.toNat_false,Nat.add_zero] at hn
    subst hn
    set m := min payload.length (c.rx.size - c.rxLen) with hm
    have hmle : m ≤ payload.length := Nat.min_le_left _ _
    have htake : payload.take m = (stream.drop off).take m := by
      obtain ⟨rest,hrest⟩ := hslice
      rw [← hrest,take_append_of_le_length hmle]
    have hkept : (c.rx.data.take c.rxLen).length = c.rxLen := by
      rw [length_take,Nat.min_eq_left h.written]
    refine ⟨off + m,?_,?_,?_,?_,?_,?_⟩
    · omega
    · have hbuf : (c.rx.data.take c.rxLen ++ payload.take m).take (c.rxLen + m)
          = c.rx.data.take c.rxLen ++ payload.take m :=
        take_of_length_le (by simp [hkept,hmle])
      simp only [buffered]
      rw [hbuf,← append_assoc,take_add,htake]
      exact congrArg (· ++ _) h.bytes
    · simp [hkept,hmle]
    · have hfits := h.fits
      show c.rxLen + m ≤ c.rx.size
      omega
    · show c.rcvNxt + BitVec.ofNat 32 m = _
      rw [h.rcvNxt]
      simp only [hnofin,Bool.toNat_false,Nat.add_zero,BitVec.add_assoc,BitVec.ofNat_add]
    · intro hp
      rw [hnofin] at hp
      cases hp
  · exact ⟨n,h⟩

theorem Took.receiveFin
    {fin : Bool}
    (hend : fin → off + payload.length = stream.length) :
    ∃ n', Took stream r₀ drained (c.receiveFin (r₀ + BitVec.ofNat 32 off) payload fin).2 n' := by
  have hle := h.le
  unfold TcpConn.receiveFin
  split
  · next hin =>
    obtain ⟨hf,hseq⟩ := hin
    have hend := hend hf
    have hfin01 : c.peerFin.toNat ≤ 1 := Bool.toNat_le c.peerFin
    rw [BitVec.add_assoc,← BitVec.ofNat_add] at hseq
    have hn : off + payload.length = n + c.peerFin.toNat :=
      offset_inj (by omega) (by omega) (hseq.trans h.rcvNxt)
    have hnofin : c.peerFin = false := by
      cases hp : c.peerFin with
      | false => rfl
      | true =>
        have := h.fin hp
        simp only [hp,Bool.toNat_true] at hn
        omega
    simp only [hnofin,Bool.toNat_false,Nat.add_zero] at hn
    refine ⟨n,h.le,h.bytes,h.written,h.fits,?_,fun _ => by omega⟩
    rw [h.rcvNxt]
    simp [hnofin,BitVec.add_assoc,BitVec.ofNat_add]
  · exact ⟨n,h⟩

end

theorem Took.drain (h : Took stream r₀ drained c n) :
    Took stream r₀ (drained ++ c.buffered) { c with rxLen := 0 } n where
  le := h.le
  bytes := by simpa [buffered] using h.bytes
  written := Nat.zero_le _
  fits := Nat.zero_le _
  rcvNxt := h.rcvNxt
  fin := h.fin

theorem Took.receiveSegment (hlen : stream.length < 2 ^ 31) (h : Took stream r₀ drained c n)
    {tcp : List UInt8} (hcarries : Carries stream r₀ tcp) (now : Nat) :
    ∃ n', Took stream r₀ drained (c.receiveSegment now tcp).2 n' := by
  unfold TcpConn.receiveSegment
  have hacked : Took stream r₀ drained
      (if hasFlag (segFlags tcp) tcpAck then c.onTcpAck now (be32 tcp 8) (be16 tcp 14) else c)
      n := by
    split
    · obtain ⟨_,_,_,_,_,_,_,heq⟩ := c.onTcpAck_eq now (be32 tcp 8) (be16 tcp 14)
      rw [heq]
      exact h.congr rfl rfl rfl rfl
    · exact h
  obtain ⟨-,⟨hnil,hnofin⟩ | ⟨off,hseq,hslice,hoff,hend⟩⟩ := hcarries
  · simp only [hnil,hnofin,TcpConn.receiveData,TcpConn.receiveFin]
    exact ⟨n,by simpa using hacked⟩
  · obtain ⟨m,hm⟩ := hacked.receiveData hlen hslice hoff
    rw [hseq]
    exact hm.receiveFin hlen hend

end

structure Flow where
  remote : Local
  remotePort : Nat
  addr : Local
  port : Nat

/-- The stack, and what was drained from the connection so far. -/
structure Reading where
  stack : Stack
  drained : List UInt8

namespace Reading

def step (w : Reading) (op : Op) : Option Reading :=
  (w.stack.exec op).map fun (out, s) => ⟨s,w.drained ++ out.drained⟩

/-- What happens to the connection: segments of the flow that carry the stream, and
drains. -/
def FromPeer (stream : List UInt8) (r₀ : Seq) (flow : Flow) (ci : Nat) : Op → Prop
  | .segment remote addr tcp _ =>
    remote = flow.remote ∧ addr = flow.addr ∧ be16 tcp 0 = flow.remotePort ∧
      be16 tcp 2 = flow.port ∧ Carries stream r₀ tcp
  | .takeRxAll cj => cj = ci
  | _ => False

/-- The connection of the flow is `ci`, past the SYN exchange or about to complete it,
and has taken a prefix of the stream. -/
structure Inv (stream : List UInt8) (r₀ : Seq) (flow : Flow) (ci : Nat) (w : Reading) :
    Prop where
  found : w.stack.findConn flow.remote flow.remotePort flow.addr flow.port = some ci
  past : (w.stack.conn ci).state ≠ .synSent
  took : ∃ n, Took stream r₀ w.drained (w.stack.conn ci) n

end Reading

theorem Stack.findConn_update {s : Stack} {ci : Nat} {f : TcpConn → TcpConn} {flow : Flow}
    (h : s.findConn flow.remote flow.remotePort flow.addr flow.port = some ci)
    (hf : (f (s.conn ci)).isFor flow.remote flow.remotePort flow.addr flow.port) :
    (s.update ci f).findConn flow.remote flow.remotePort flow.addr flow.port = some ci := by
  have hlt := findConn_lt h
  obtain ⟨hci,-,hbefore⟩ := List.findIdx?_eq_some_iff_getElem.mp h
  refine List.findIdx?_eq_some_iff_getElem.mpr ⟨by simpa using hlt,?_,?_⟩
  · have := conn_update_self hlt (f := f)
    rw [conn_of_lt (by simpa using hlt)] at this
    rw [this]
    exact hf
  intro j hj
  have hne : j ≠ ci := by omega
  have := conn_update_ne hne (s := s) (f := f)
  rw [conn_of_lt (by simp; omega),conn_of_lt (by omega)] at this
  rw [this]
  exact hbefore j hj

namespace Reading

variable {stream : List UInt8} {r₀ : Seq} {flow : Flow} {ci : Nat} {drained : List UInt8}

variable {s : Stack} {tcp : List UInt8}

theorem inv_onEstablished (hlen : stream.length < 2 ^ 31) (h : Inv stream r₀ flow ci ⟨s,drained⟩)
    (hcarries : Carries stream r₀ tcp) (below : Below) :
    Inv stream r₀ flow ci ⟨(s.onEstablished ci tcp below).2,drained⟩ := by
  have hlt := findConn_lt h.found
  obtain ⟨b,heq⟩ := s.onEstablished_eq ci tcp below
  obtain ⟨n,hn⟩ := h.took
  obtain ⟨n',hn'⟩ := hn.receiveSegment hlen hcarries s.clockMs
  have hfor := List.findIdx?_eq_some_iff_getElem.mp h.found
  obtain ⟨_,_,_,_,_,_,_,_,_,_,_,hframe⟩ := (s.conn ci).receiveSegment_eq s.clockMs tcp
  have hpast := h.past
  rw [heq]
  refine ⟨findConn_update h.found ?_,?_,n',?_⟩
  · obtain ⟨_,hfor,-⟩ := hfor
    rw [← conn_of_lt hlt] at hfor
    rw [hframe]
    exact hfor
  · simp only [conn_update_self hlt]
    rw [hframe]
    exact hpast
  · simp only [conn_update_self hlt]
    exact hn'.congr rfl rfl rfl rfl

theorem inv_completePassive (h : Inv stream r₀ flow ci ⟨s,drained⟩)
    (hrcvd : (s.conn ci).state = .synRcvd) (tcp : List UInt8) :
    Inv stream r₀ flow ci ⟨s.completePassive ci tcp,drained⟩ := by
  have hlt := findConn_lt h.found
  obtain ⟨n,hn⟩ := h.took
  obtain ⟨_,hfor,-⟩ := List.findIdx?_eq_some_iff_getElem.mp h.found
  rw [← conn_of_lt hlt] at hfor
  have hfor' : ((s.conn ci).completed s.mtu tcp).isFor flow.remote flow.remotePort flow.addr
      flow.port := by
    simp only [isFor,hrcvd] at hfor
    exact hfor
  refine ⟨findConn_update h.found hfor',?_,n,?_⟩
  · show ((s.update ci _).conn ci).state ≠ .synSent
    rw [conn_update_self hlt]
    exact nofun
  · show Took stream r₀ drained ((s.update ci _).conn ci) n
    rw [conn_update_self hlt]
    exact hn.congr rfl rfl rfl rfl

theorem inv_onConnSegment (hlen : stream.length < 2 ^ 31) (h : Inv stream r₀ flow ci ⟨s,drained⟩)
    (hcarries : Carries stream r₀ tcp) (below : Below) :
    Inv stream r₀ flow ci ⟨(s.onConnSegment ci tcp below).2,drained⟩ := by
  unfold onConnSegment
  dsimp only
  rw [hcarries.1]
  split
  · exact h
  simp only [Bool.false_eq_true,↓reduceIte]
  split
  · next hsent => exact absurd hsent h.past
  · next hrcvd =>
    split
    · exact inv_onEstablished hlen (inv_completePassive h hrcvd tcp) hcarries below
    · exact h
  · exact inv_onEstablished hlen h hcarries below

theorem inv_step (hlen : stream.length < 2 ^ 31) (w : Reading) (op : Op) (w' : Reading)
    (h : Inv stream r₀ flow ci w) (hop : FromPeer stream r₀ flow ci op)
    (hs : w.step op = some w') : Inv stream r₀ flow ci w' := by
  obtain ⟨⟨out,s'⟩,hexec,rfl⟩ := Option.map_eq_some_iff.mp hs
  cases op with
  | segment remote addr tcp below =>
    obtain ⟨rfl,rfl,hsrc,hdst,hcarries⟩ := hop
    cases hexec
    simp only [append_nil]
    unfold onTcpSegment
    dsimp only
    split
    · exact h
    · rw [hsrc,hdst,h.found]
      exact inv_onConnSegment hlen h hcarries below
  | takeRxAll cj =>
    obtain rfl : cj = ci := hop
    obtain ⟨hlt,heq⟩ := onBlock_eq_some hexec
    cases heq
    obtain ⟨n,hn⟩ := h.took
    obtain ⟨_,hfor,-⟩ := List.findIdx?_eq_some_iff_getElem.mp h.found
    rw [← conn_of_lt hlt] at hfor
    refine ⟨findConn_update h.found hfor,?_,n,?_⟩
    · show ((w.stack.update cj _).conn cj).state ≠ .synSent
      rw [conn_update_self hlt]
      exact h.past
    · show Took stream r₀ _ ((w.stack.update cj _).conn cj) n
      rw [conn_update_self hlt]
      exact hn.drain
  | _ => cases hop

/-- What was drained and what is buffered is a prefix of the peer's stream, after any
segments of the stream and any drains: the buffer is never overrun, the receive
sequence is the initial one past that prefix and past the FIN exactly when the FIN was
taken, and the FIN is taken only after the whole stream. -/
theorem received_is_prefix (stream : List UInt8) (hlen : stream.length < 2 ^ 31)
    (s : Stack) (flow : Flow) (ci : Nat)
    (hfound : s.findConn flow.remote flow.remotePort flow.addr flow.port = some ci)
    (hstate : (s.conn ci).state ≠ .synSent) (hempty : (s.conn ci).rxLen = 0)
    (hopen : (s.conn ci).peerFin = false) (w : Reading)
    (hrun : Reaches step (fun _ => FromPeer stream (s.conn ci).rcvNxt flow ci) ⟨s,[]⟩ w) :
    ∃ n ≤ stream.length, w.drained ++ (w.stack.conn ci).buffered = stream.take n ∧
      (w.stack.conn ci).buffered.length = (w.stack.conn ci).rxLen ∧
      (w.stack.conn ci).rxLen ≤ (w.stack.conn ci).rx.size ∧
      (w.stack.conn ci).rcvNxt
        = (s.conn ci).rcvNxt + BitVec.ofNat 32 (n + (w.stack.conn ci).peerFin.toNat) ∧
      ((w.stack.conn ci).peerFin = true → n = stream.length) := by
  have hstart : Inv stream (s.conn ci).rcvNxt flow ci ⟨s,[]⟩ := by
    refine ⟨hfound,hstate,0,Nat.zero_le _,?_,?_,?_,?_,?_⟩
    · simp [buffered,hempty]
    · simp [hempty]
    · simp [hempty]
    · simp [hopen]
    · simp [hopen]
  have hinv := hrun.invariant hstart (inv_step hlen)
  obtain ⟨n,hn⟩ := hinv.took
  refine ⟨n,hn.le,hn.bytes,?_,hn.fits,hn.rcvNxt,hn.fin⟩
  rw [buffered,length_take,Nat.min_eq_left hn.written]

/-- A stack with one connection, opened from port 4000 to port 80 of `10.0.0.1` and
answered. The stream of the peer starts one below the wrap. -/
def dialled : Stack :=
  let opened := (Stack.new false 0x0a000002 1500).tcpOpenOutbound.2.tcpOpen 0 0x0a000001 80 4000 7
  (opened.onTcpSegment (.v4 0x0a000001) (.v4 0x0a000002)
    (rawSegment 80 4000 0xfffffffe 8 (tcpSyn ||| tcpAck) 4096 []) ⟨1514,.refused⟩).2

/-- The second half of a stream of four bytes with the FIN, the first half, a drain, a
segment from between, and the second half again. -/
def reordered : List Op :=
  let arrives := fun seq flags payload => Op.segment (.v4 0x0a000001) (.v4 0x0a000002)
    (rawSegment 80 4000 seq 8 flags 4096 payload) ⟨1514,.refused⟩
  [arrives 1 (tcpAck ||| tcpFin) [13,14],arrives 0xffffffff tcpAck [11,12],.takeRxAll 0,
    arrives 0 tcpAck [12,13],arrives 1 (tcpAck ||| tcpFin) [13,14]]

theorem received_is_prefix_reordered : ∃ w, runList step ⟨dialled,[]⟩ reordered = some w ∧
    (w.stack.conn 0).peerFin = true ∧
    ∃ n ≤ 4, w.drained ++ (w.stack.conn 0).buffered = [11,12,13,14].take n ∧
      ((w.stack.conn 0).peerFin = true → n = 4) := by
  have hrun : (runList step ⟨dialled,[]⟩ reordered).map (fun w => (w.stack.conn 0).peerFin)
      = some true := by decide +kernel
  obtain ⟨w,hw,hfin⟩ := Option.map_eq_some_iff.mp hrun
  have hnxt : (dialled.conn 0).rcvNxt = 0xffffffff := by decide +kernel
  have hok : ∀ (w : Reading), ∀ op ∈ reordered, FromPeer [11,12,13,14] (dialled.conn 0).rcvNxt
        ⟨.v4 0x0a000001,80,.v4 0x0a000002,4000⟩ 0 op := by
    intro _ op hop
    simp only [reordered,mem_cons,not_mem_nil,or_false] at hop
    rcases hop with rfl | rfl | rfl | rfl | rfl
    · exact ⟨rfl,rfl,by decide,by decide,by decide,.inr ⟨2,by decide,by decide,by decide,by decide⟩⟩
    · exact ⟨rfl,rfl,by decide,by decide,by decide,.inr ⟨0,by decide,by decide,by decide,by decide⟩⟩
    · exact rfl
    · exact ⟨rfl,rfl,by decide,by decide,by decide,.inr ⟨1,by decide,by decide,by decide,by decide⟩⟩
    · exact ⟨rfl,rfl,by decide,by decide,by decide,.inr ⟨2,by decide,by decide,by decide,by decide⟩⟩
  obtain ⟨n,hn,hbytes,-,-,-,hall⟩ := received_is_prefix [11,12,13,14] (by decide) dialled
    ⟨.v4 0x0a000001,80,.v4 0x0a000002,4000⟩ 0 (by decide +kernel) (by decide +kernel)
    (by decide +kernel) (by decide +kernel) w (reaches_of_runList hw hok)
  exact ⟨w,hw,hfin,n,hn,hbytes,hall⟩

end Reading

end LiberSystem.Net
