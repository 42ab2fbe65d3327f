import LiberSystem.Net.SendQueue

/-!
# Reading a TCP segment

The fields of a segment as the stack reads them off the bytes: ports, sequence numbers,
the data offset, the flags, and the options of a SYN.
-/

namespace LiberSystem.Net

def tcpHdr : Nat := 20
def ipv4Hdr : Nat := 20
def ipv6Hdr : Nat := 40
def ethHdr : Nat := 14

def tcpFin : UInt8 := 0x01
def tcpSyn : UInt8 := 0x02
def tcpRst : UInt8 := 0x04
def tcpPsh : UInt8 := 0x08
def tcpAck : UInt8 := 0x10

def hasFlag (flags bit : UInt8) : Bool := flags &&& bit != 0

def tcpMss : Nat := 536

def tcpMssFloor : Nat := 88

def tcpWsShift : Nat := 2

def byteAt (b : List UInt8) (off : Nat) : Nat := (b.getD off 0).toNat

def be16 (b : List UInt8) (off : Nat) : Nat := byteAt b off * 2 ^ 8 + byteAt b (off + 1)

def be32 (b : List UInt8) (off : Nat) : Seq :=
  BitVec.ofNat 32 (byteAt b off * 2 ^ 24 + byteAt b (off + 1) * 2 ^ 16
    + byteAt b (off + 2) * 2 ^ 8 + byteAt b (off + 3))

variable (tcp : List UInt8)

def dataOff : Nat := byteAt tcp 12 / 16 * 4

def segFlags : UInt8 := tcp.getD 13 0

/-- The loop of `peerMssOption` from option offset `i`; every iteration advances, so
fuel of the data offset is enough. -/
def peerMssFrom (tcp : List UInt8) (off : Nat) : Nat → Nat → Nat
  | 0, _ => tcpMss
  | fuel + 1, i =>
    if i < off then
      if byteAt tcp i = 0 then tcpMss
      else if byteAt tcp i = 1 then peerMssFrom tcp off fuel (i + 1)
      else if byteAt tcp i = 2 ∧ i + 3 < off ∧ byteAt tcp (i + 1) = 4 then
        max (be16 tcp (i + 2)) tcpMssFloor
      else if i + 1 ≥ off ∨ byteAt tcp (i + 1) < 2 then tcpMss
      else peerMssFrom tcp off fuel (i + byteAt tcp (i + 1))
    else tcpMss

def peerMssOption : Nat :=
  let off := dataOff tcp
  if off < tcpHdr ∨ off > tcp.length then tcpMss else peerMssFrom tcp off off tcpHdr

def peerWsFrom (tcp : List UInt8) (off : Nat) : Nat → Nat → Bool
  | 0, _ => false
  | fuel + 1, i =>
    if i < off then
      if byteAt tcp i = 0 then false
      else if byteAt tcp i = 1 then peerWsFrom tcp off fuel (i + 1)
      else if byteAt tcp i = 3 then true
      else if i + 1 ≥ off ∨ byteAt tcp (i + 1) < 2 then false
      else peerWsFrom tcp off fuel (i + byteAt tcp (i + 1))
    else false

def peerOffersWs : Bool :=
  let off := dataOff tcp
  if off < tcpHdr ∨ off > tcp.length then false else peerWsFrom tcp off off tcpHdr

def rawSegment (srcPort dstPort : Nat) (seq ack : Seq) (flags : UInt8) (window : Nat)
    (payload : List UInt8) : List UInt8 :=
  let bytes16 := fun n : Nat => [UInt8.ofNat (n / 2 ^ 8),UInt8.ofNat n]
  let bytes32 := fun q : Seq => bytes16 (q.toNat / 2 ^ 16) ++ bytes16 (q.toNat % 2 ^ 16)
  bytes16 srcPort ++ bytes16 dstPort ++ bytes32 seq ++ bytes32 ack ++ [0x50,flags]
    ++ bytes16 window ++ [0,0,0,0] ++ payload

end LiberSystem.Net
