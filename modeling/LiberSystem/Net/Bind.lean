import Mathlib.Algebra.GroupWithZero.Nat

/-!
# Listener claims

Two claims on one port collide unless one is for IPv4 alone and the other for IPv6 alone. The table
gives each admitted claim an identity that its accounting is keyed by.
-/

namespace LiberSystem.Net

inductive BindMode where
  | ipv4Only
  | ipv6Only
  /-- Both families, and only ever on the unspecified IPv6 address. -/
  | dualStack
deriving DecidableEq, Repr

/-- An address of either family, its octets in network order. -/
inductive Local where
  | v4 (octets : BitVec 32)
  | v6 (octets : BitVec 128)
deriving DecidableEq, Repr

namespace Local

def isV4 : Local → Bool
  | v4 _ => true
  | v6 _ => false

def isUnspecified : Local → Bool
  | v4 octets => octets == 0
  | v6 octets => octets == 0

/-- `::ffff:a.b.c.d`, which is refused as a listen address. -/
def isIpv4Mapped : Local → Bool
  | v4 _ => false
  | v6 octets => octets >>> 32 == 0xffff

end Local

inductive BindRefusal where
  | mismatch
  | mapped
  | inUse
deriving DecidableEq, Repr

structure Binding where
  mode : BindMode
  address : Local
  port : Nat
deriving DecidableEq, Repr

namespace Binding

def wellFormed (b : Binding) : Except BindRefusal Unit :=
  if b.address.isIpv4Mapped then .error .mapped
  else
    match b.mode, b.address with
    | .ipv4Only, .v4 _ => .ok ()
    | .ipv6Only, .v6 _ => .ok ()
    | .dualStack, .v6 _ => if b.address.isUnspecified then .ok () else .error .mismatch
    | _, _ => .error .mismatch

def conflictsWith (b other : Binding) : Bool :=
  if b.port ≠ other.port then false
  else
    match b.mode, other.mode with
    | .dualStack, _ => true
    | _, .dualStack => true
    | .ipv4Only, .ipv6Only => false
    | .ipv6Only, .ipv4Only => false
    | _, _ => true

def accepts (b : Binding) (addr : Local) (port : Nat) : Bool :=
  if b.port ≠ port then false
  else
    match b.mode with
    | .dualStack => true
    | .ipv4Only => addr.isV4 && (b.address.isUnspecified || b.address == addr)
    | .ipv6Only => !addr.isV4 && (b.address.isUnspecified || b.address == addr)

end Binding

structure BindTable where
  entries : List (Nat × Binding)
  nextId : Nat
deriving DecidableEq, Repr

namespace BindTable

def new : BindTable := ⟨[],0⟩

variable (t : BindTable)

def bind (binding : Binding) : Except BindRefusal (Nat × BindTable) :=
  match binding.wellFormed with
  | .error refusal => .error refusal
  | .ok () =>
    if t.entries.any fun (_, held) => held.conflictsWith binding then .error .inUse
    else .ok (t.nextId + 1, ⟨t.entries ++ [(t.nextId + 1, binding)],t.nextId + 1⟩)

def unbind (id : Nat) : Bool × BindTable :=
  let kept := t.entries.filter fun (held, _) => held != id
  (t.entries.length != kept.length, { t with entries := kept })

/-- The claim a segment belongs to: the first with a specific address, or else the
first of all that accept it. -/
def lookup (addr : Local) (port : Nat) : Option (Nat × Binding) :=
  let matching := t.entries.filter fun (_, held) => held.accepts addr port
  (matching.find? fun (_, held) => !held.address.isUnspecified).or matching.head?

end BindTable

end LiberSystem.Net
