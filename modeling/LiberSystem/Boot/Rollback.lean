import LiberSystem.Lib.Bytes
import LiberSystem.Lib.Interact

/-!
# The rollback floor

The highest security generation a machine has accepted is kept in two firmware variables, the slots.
What firmware answers, and what a write that is cut off leaves, is up to the environment; the hash
of the tag is a parameter.
-/

namespace LiberSystem

open Bytes

/-- The hash that product identities and commit tags are made with. -/
class Sha256 where
  digest : List UInt8 → Bytes 32

namespace Rollback

def magic : List UInt8 := [0x4C,0x53,0x52,0x4F,0x4C,0x4C,0x42,0x31]

def formatVersion : ℕ := 1

def recordLen : ℕ := 64

def tagLen : ℕ := 8

def tagAt : ℕ := 56

def floorAt : ℕ := 48

def productAt : ℕ := 16

def reservedAt : ℕ := 12

def versionAt : ℕ := 8

def markerLen : ℕ := 1

def markerValue : UInt8 := 0x01

def attributes : UInt32 := 0x00000003

inductive Slot where
  | a
  | b
  deriving DecidableEq, Repr

inductive Variable where
  | slotA
  | slotB
  | marker
  deriving DecidableEq, Repr

namespace Slot

def indexByte : Slot → UInt8
  | a => 0x00
  | b => 0x01

def other : Slot → Slot
  | a => b
  | b => a

def toVariable : Slot → Variable
  | a => .slotA
  | b => .slotB

@[simp] theorem other_other (slot : Slot) : slot.other.other = slot := by cases slot <;> rfl

theorem other_ne (slot : Slot) : slot.other ≠ slot := by cases slot <;> decide

theorem eq_or_eq_other (s slot : Slot) : s = slot ∨ s = slot.other := by
  cases s <;> cases slot <;> decide

end Slot

section Record

variable [Sha256]

def tag (head : List UInt8) (slot : Slot) : List UInt8 :=
  (Sha256.digest (head.take tagAt ++ [slot.indexByte])).slice 0 tagLen

def encode (floor : UInt64) (slot : Slot) (product : Bytes 32) : Bytes 64 :=
  let record : Bytes 64 := (Bytes.zeros.put 0 magic).putNum 4 versionAt formatVersion
  let record := (record.put productAt (product.slice 0 32)).putNum 8 floorAt floor.toNat
  record.put tagAt (tag (record.slice 0 recordLen) slot)

inductive Invalid where
  | length (len : ℕ)
  | magic
  | version (found : ℕ)
  | reserved (found : ℕ)
  | product
  | tag
  deriving DecidableEq, Repr

def field (bytes : List UInt8) (off len : ℕ) : List UInt8 := (bytes.drop off).take len

def decode (bytes : List UInt8) (slot : Slot) (product : Bytes 32) : Except Invalid UInt64 :=
  if bytes.length ≠ recordLen then .error (.length bytes.length)
  else if field bytes 0 magic.length ≠ magic then .error .magic
  else if ofLe (field bytes versionAt 4) ≠ formatVersion then
    .error (.version (ofLe (field bytes versionAt 4)))
  else if ofLe (field bytes reservedAt 4) ≠ 0 then
    .error (.reserved (ofLe (field bytes reservedAt 4)))
  else if field bytes productAt 32 ≠ product.slice 0 32 then .error .product
  -- the tag is checked last and decides: a torn write leaves it absent or partial
  else if tag bytes slot ≠ bytes.drop tagAt then .error .tag
  else .ok (UInt64.ofNat (ofLe (field bytes floorAt 8)))

/-- The answer to a read. Only `absent` is absence. -/
inductive Read where
  | absent
  | present (attributes : UInt32) (len : Fin 65) (bytes : Bytes 64)
  | oversized (len : ℕ)
  | accessDenied
  | deviceError
  | failed (status : ℕ)

inductive SlotState where
  | valid (floor : UInt64)
  | absent
  | invalid (reason : Invalid)
  | wrongAttributes (found : UInt32)
  | accessDenied
  | deviceError
  | failed (status : ℕ)
  deriving DecidableEq, Repr

def SlotState.floor : SlotState → Option UInt64
  | valid floor => some floor
  | _ => none

def slotState (read : Read) (slot : Slot) (product : Bytes 32) : SlotState :=
  match read with
  | .absent => .absent
  | .accessDenied => .accessDenied
  | .deviceError => .deviceError
  | .failed status => .failed status
  | .oversized len => .invalid (.length len)
  | .present found len bytes =>
    if found ≠ attributes then .wrongAttributes found
    else match decode (bytes.slice 0 len) slot product with
      | .ok floor => .valid floor
      | .error reason => .invalid reason

end Record

inductive MarkerRefusal where
  | length (len : ℕ)
  | value (found : UInt8)
  | attributes (found : UInt32)
  | accessDenied
  | deviceError
  | failed (status : ℕ)
  deriving DecidableEq, Repr

inductive MarkerState where
  | absent
  | present
  | refused (reason : MarkerRefusal)
  deriving DecidableEq, Repr

def markerState : Read → MarkerState
  | .absent => .absent
  | .accessDenied => .refused .accessDenied
  | .deviceError => .refused .deviceError
  | .failed status => .refused (.failed status)
  | .oversized len => .refused (.length len)
  | .present found len bytes =>
    if len.val ≠ markerLen then .refused (.length len)
    else if found ≠ attributes then .refused (.attributes found)
    else if bytes.get 0 ≠ markerValue then .refused (.value (bytes.get 0))
    else .present

inductive Refusal where
  | marker (reason : MarkerRefusal)
  | noValidSlot (a b : SlotState)
  deriving DecidableEq, Repr

inductive Provisioning where
  | unprovisioned
  | provisioned (floor : UInt64) (lagging : Option Slot)
  | refused (reason : Refusal)
  deriving DecidableEq, Repr

def classify (marker : MarkerState) (a b : SlotState) : Provisioning :=
  match marker with
  | .refused reason => .refused (.marker reason)
  | .absent => .unprovisioned
  | .present =>
    match a.floor, b.floor with
    | some x, some y =>
      if x = y then .provisioned x none
      else .provisioned (max x y) (some (if x < y then .a else .b))
    | some x, none => .provisioned x (some .b)
    | none, some y => .provisioned y (some .a)
    | none, none => .refused (.noValidSlot a b)

/-- The slots an accepted boot writes, in order, each at the resulting floor. -/
structure Writes where
  first : Option Slot
  second : Option Slot
  deriving DecidableEq, Repr

inductive Verdict where
  | unprovisioned
  | below (floor generation : UInt64)
  | accepted (previous floor : UInt64) (writes : Writes)
  deriving DecidableEq, Repr

def Provisioning.decide (state : Provisioning) (generation : UInt64) : Except Refusal Verdict :=
  match state with
  | .refused reason => .error reason
  | .unprovisioned => .ok .unprovisioned
  | .provisioned floor lagging =>
    if generation < floor then .ok (.below floor generation)
    else if generation = floor then .ok (.accepted floor floor ⟨lagging,none⟩)
    else
      let first := lagging.getD .a
      .ok (.accepted floor generation ⟨some first,some first.other⟩)

inductive WriteFault where
  | noWritePath
  | refused (status : ℕ)
  deriving DecidableEq, Repr

inductive Request where
  | read (which : Variable)
  | write (slot : Slot) (record : Bytes 64)

def Request.Answer : Request → Type
  | read _ => Read
  | write _ _ => Except WriteFault Unit

inductive Fault where
  | refused (reason : Refusal)
  | below (floor generation : UInt64)
  | write (slot : Slot) (fault : WriteFault)
  | readback (slot : Slot) (found : SlotState)
  deriving DecidableEq, Repr

inductive Outcome where
  | unprovisioned (generation : UInt64)
  | accepted (previous floor : UInt64) (converged : Writes)
  deriving DecidableEq, Repr

abbrev Boot (α : Type) := Proc Request Request.Answer Unit Fault α

namespace Firmware

def read (which : Variable) : Boot Read := Proc.call (Request.read which)

def write (slot : Slot) (record : Bytes 64) : Boot (Except WriteFault Unit) :=
  Proc.call (Request.write slot record)

end Firmware

section Enforce

variable [Sha256]

def writeSlot (product : Bytes 32) (floor : UInt64) (slot : Slot) : Boot Unit := do
  match ← Firmware.write slot (encode floor slot product) with
  | .error fault => throw (.write slot fault)
  | .ok () =>
    -- read back before it is treated as current
    let found := slotState (← Firmware.read slot.toVariable) slot product
    if found ≠ .valid floor then throw (.readback slot found) else pure ()

def writeSlots (product : Bytes 32) (floor : UInt64) : List Slot → Boot Unit
  | [] => pure ()
  | slot :: rest => do
    writeSlot product floor slot
    writeSlots product floor rest

def enforce (product : Bytes 32) (generation : UInt64) : Boot Outcome := do
  let marker := markerState (← Firmware.read .marker)
  let a := slotState (← Firmware.read .slotA) .a product
  let b := slotState (← Firmware.read .slotB) .b product
  match (classify marker a b).decide generation with
  | .error reason => throw (.refused reason)
  | .ok .unprovisioned => pure (.unprovisioned generation)
  | .ok (.below floor generation) => throw (.below floor generation)
  | .ok (.accepted previous floor writes) => do
    writeSlots product floor (writes.first.toList ++ writes.second.toList)
    pure (.accepted previous floor writes)

end Enforce

section Record

variable [Sha256] {floor : UInt64} {slot : Slot} {product : Bytes 32}

@[simp] theorem length_tag (head : List UInt8) (slot : Slot) : (tag head slot).length = tagLen :=
  length_slice

omit [Sha256] in
theorem field_slice {b : Bytes 64} {off len : ℕ} (h : off + len ≤ 64) :
    field (b.slice 0 64) off len = b.slice off len := by
  rw [field,take_drop_slice h,Nat.zero_add]

theorem tag_put_tag (record : Bytes 64) (bs : List UInt8) :
    tag ((record.put tagAt bs).slice 0 64) slot = tag (record.slice 0 64) slot := by
  have htake (b : Bytes 64) : (b.slice 0 64).take tagAt = b.slice 0 tagAt := by
    rw [← List.drop_zero (l := b.slice 0 64),take_drop_slice (by decide)]
  rw [tag,tag,htake,htake,slice_put_of_disjoint (.inl (by decide))]

theorem encode_fields (floor : UInt64) (slot : Slot) (product : Bytes 32) : ∃ head : Bytes 64,
    encode floor slot product = head.put tagAt (tag (head.slice 0 64) slot) ∧
    head.slice 0 8 = magic ∧ head.slice versionAt 4 = toLe 4 formatVersion ∧
    head.slice reservedAt 4 = toLe 4 0 ∧ head.slice productAt 32 = product.slice 0 32 ∧
    head.slice floorAt 8 = toLe 8 floor.toNat := by
  let r₁ : Bytes 64 := zeros.put 0 magic
  let r₂ := r₁.putNum 4 versionAt formatVersion
  let r₃ := r₂.put productAt (product.slice 0 32)
  have h₄ {o len : ℕ} h : (r₃.putNum 8 floorAt floor.toNat).slice o len = r₃.slice o len :=
    slice_put_of_disjoint (.inl h)
  have h₃ {o len : ℕ} h : r₃.slice o len = r₂.slice o len := slice_put_of_disjoint (.inl h)
  refine ⟨r₃.putNum 8 floorAt floor.toNat,rfl,?_,?_,?_,?_,?_⟩
  · rw [h₄ (by decide),h₃ (by decide)]
    decide +kernel
  · rw [h₄ (by decide),h₃ (by decide)]
    decide +kernel
  · rw [h₄ (by decide),h₃ (by decide)]
    decide +kernel
  · rw [h₄ (by decide)]
    exact slice_put_eq length_slice (by decide)
  · exact slice_put_eq (length_toLe 8 _) (by decide)

theorem decode_encode :
    decode ((encode floor slot product).slice 0 64) slot product = .ok floor := by
  obtain ⟨head,hrec,hmagic,hversion,hreserved,hproduct,hfloor⟩ := encode_fields floor slot product
  have hkeep {o len : ℕ} (h : o + len ≤ tagAt) :
      field ((encode floor slot product).slice 0 64) o len = head.slice o len := by
    have hle : tagAt ≤ 64 := by decide
    rw [field_slice (h.trans hle),hrec,slice_put_of_disjoint (.inl h)]
  have htag : ((encode floor slot product).slice 0 64).drop tagAt = tag (head.slice 0 64) slot := by
    have hdrop : ((encode floor slot product).slice 0 64).drop tagAt =
        field ((encode floor slot product).slice 0 64) tagAt tagLen :=
      (List.take_of_length_le (by simp [tagAt,tagLen])).symm
    rw [hdrop,field_slice (by decide),hrec]
    exact slice_put_eq (length_tag _ _) (by decide)
  have hsame : tag ((encode floor slot product).slice 0 64) slot = tag (head.slice 0 64) slot := by
    rw [hrec,tag_put_tag]
  have hread := (hkeep (by decide)).trans hfloor
  rw [decode,if_neg (by simp [recordLen]),
    if_neg (by rw [hkeep (by decide)]; exact not_not.mpr hmagic),
    if_neg (by rw [hkeep (by decide),hversion,ofLe_toLe (by decide)]; simp),
    if_neg (by rw [hkeep (by decide),hreserved,ofLe_toLe (by decide)]; simp),
    if_neg (by rw [hkeep (by decide),hproduct]; simp),if_neg (by rw [hsame,htag]; simp),hread,
    ofLe_toLe (by exact floor.toNat_lt),UInt64.ofNat_toNat]

end Record

end Rollback

end LiberSystem
