import Mathlib.Data.BitVec

/-!
# Rights, kernel objects, capabilities and handles

The values of `object/rights.rs`, `object/mod.rs` and `object/handle/mod.rs`. The field `chain` of a
capability, the rights of those it was derived from, is a ghost: nothing reads it.
-/

namespace LiberSystem

/-- A set of rights, as the bits the ABI gives them. -/
structure Rights where
  bits : BitVec 32
  deriving DecidableEq, Repr

namespace Rights

def send : Rights := ⟨1 <<< 4⟩
def receive : Rights := ⟨1 <<< 5⟩
def duplicate : Rights := ⟨1 <<< 6⟩
def transfer : Rights := ⟨1 <<< 7⟩

def all : Rights := ⟨0xfff⟩

def contains (self other : Rights) : Bool := self.bits &&& other.bits == other.bits

def inter (self other : Rights) : Rights := ⟨self.bits &&& other.bits⟩

def fromBits (bits : BitVec 32) : Rights := ⟨bits &&& all.bits⟩

/-- `a ≤ b`: `b` grants everything `a` does. -/
instance : LE Rights := ⟨fun a b => b.contains a = true⟩

theorem le_iff {a b : Rights} : a ≤ b ↔ b.bits &&& a.bits = a.bits := by
  change b.contains a = true ↔ _
  simp [contains]

theorem le_trans {a b c : Rights} (hab : a ≤ b) (hbc : b ≤ c) : a ≤ c := by
  rw [le_iff] at *
  rw [← hab,← BitVec.and_assoc,hbc]

theorem inter_le (a mask : Rights) : a.inter mask ≤ a := by
  rw [le_iff]
  change a.bits &&& (a.bits &&& mask.bits) = a.bits &&& mask.bits
  rw [← BitVec.and_assoc,BitVec.and_self]

end Rights

abbrev Koid := Nat

inductive ObjectType where
  | domain
  | process
  | thread
  | addressSpace
  | memoryObject
  | channel
  | event
  | timer
  | interrupt
  | deviceMemory
  | dmaBuffer
  | claim
  | processGroup
  | privilege
  | waitSet
  | portRange
  | consoleTap
  | registers
  | latencyRequest
  | balloon
  | plugRegion
  deriving DecidableEq, Repr

/-- What the table reads of an object: its type and its revocation generation. -/
structure ObjectHeader where
  objectType : ObjectType
  generation : BitVec 32
  deriving DecidableEq, Repr

abbrev Objects := Koid → ObjectHeader

variable (objs : Objects)

def Objects.revoke (o : Koid) : Objects :=
  Function.update objs o { objs o with generation := (objs o).generation + 1 }

structure Capability where
  object : Koid
  rights : Rights
  generation : BitVec 32
  /-- Ghost: the rights of the capabilities this one descends from, newest first. -/
  chain : List Rights
  deriving DecidableEq, Repr

namespace Capability

def new (object : Koid) (rights : Rights) : Capability :=
  ⟨object,rights,(objs object).generation,[]⟩

variable (self : Capability)

def attenuated (mask : Rights) : Capability :=
  ⟨self.object,self.rights.inter mask,self.generation,self.rights :: self.chain⟩

/-- The capability `HandleTable::duplicate` mints from `self`: the object's
generation is read again, and only the ghost chain says where it came from. -/
def derived (rights : Rights) : Capability :=
  { new objs self.object rights with chain := self.rights :: self.chain }

def isValid : Bool :=
  (objs self.object).generation == self.generation

end Capability

def u32Max : Nat := 2 ^ 32 - 1

/-- An opaque token: a slot generation in the high word, a slot index in the low. -/
structure Handle where
  raw : BitVec 64
  deriving DecidableEq, Repr

namespace Handle

def new (generation index : Nat) : Handle := ⟨BitVec.ofNat 64 (generation <<< 32 ||| index)⟩

def fromRaw (raw : BitVec 64) : Handle := ⟨raw⟩

def index (h : Handle) : Nat := h.raw.toNat % 2 ^ 32

def generation (h : Handle) : Nat := h.raw.toNat >>> 32

theorem index_lt (h : Handle) : h.index < 2 ^ 32 := Nat.mod_lt _ (by decide)

private theorem pack_eq {g i : Nat} (hg : g < 2 ^ 32) (hi : i < 2 ^ 32) :
    (new g i).raw.toNat = g * 2 ^ 32 + i := by
  have hor : g <<< 32 ||| i = g * 2 ^ 32 + i := by
    rw [← Nat.shiftLeft_add_eq_or_of_lt hi,Nat.shiftLeft_eq]
  rw [new,BitVec.toNat_ofNat,hor,Nat.mod_eq_of_lt]
  omega

@[simp] theorem index_new {g i : Nat} (hg : g < 2 ^ 32) (hi : i < 2 ^ 32) :
    (new g i).index = i := by
  rw [index,pack_eq hg hi]
  omega

@[simp] theorem generation_new {g i : Nat} (hg : g < 2 ^ 32) (hi : i < 2 ^ 32) :
    (new g i).generation = g := by
  rw [generation,pack_eq hg hi,Nat.shiftRight_eq_div_pow]
  omega

theorem new_generation_index (h : Handle) : new h.generation h.index = h := by
  have hg : h.generation < 2 ^ 32 := by
    have := h.raw.isLt
    rw [generation,Nat.shiftRight_eq_div_pow]
    omega
  have hraw : (new h.generation h.index).raw = h.raw := by
    apply BitVec.eq_of_toNat_eq
    rw [pack_eq hg h.index_lt,generation,index,Nat.shiftRight_eq_div_pow]
    omega
  cases h
  simpa [new] using hraw

theorem ext_iff' {h k : Handle} : h = k ↔ h.generation = k.generation ∧ h.index = k.index := by
  constructor
  · rintro rfl
    exact ⟨rfl,rfl⟩
  · rintro ⟨hg,hi⟩
    rw [← new_generation_index h,← new_generation_index k,hg,hi]

end Handle

inductive HandleError where
  | badHandle
  | wrongType
  | accessDenied
  | revoked
  | limitReached
  deriving DecidableEq, Repr

end LiberSystem
