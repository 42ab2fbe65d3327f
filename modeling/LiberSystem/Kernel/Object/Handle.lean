import LiberSystem.Kernel.Object.Capability

/-!
# The handle table

`HandleTable` of `object/handle/mod.rs`. What an operation asks of the machine are arguments:
whether the heap gives room (`room`), the objects (`objs`), and the Domains with their methods
(`ds`, `Q`). A `Vec` used as a stack is a list whose head is its last element.
-/

namespace LiberSystem

abbrev DomainId := Nat

/-- The Domain methods that handle tables and channels call, over a state `D`
that holds every Domain. -/
structure Quota (D : Type) where
  tryChargeHandle : DomainId → D → Bool × D
  chargeHandle : DomainId → D → D
  unchargeHandles : DomainId → Nat → D → D
  tryChargeIpcQueue : DomainId → Nat → D → Bool × D
  unchargeIpcQueue : DomainId → Nat → D → D

/-- A slot: what it holds, the generation a handle to it must name, and whether
a transfer is in flight over it. -/
structure Slot where
  cap : Option Capability
  generation : Nat
  reserved : Bool
  deriving DecidableEq, Repr

structure HandleTable where
  slots : List Slot
  free : List Nat
  booked : List Nat
  closed : Bool
  domain : Option DomainId
  deriving DecidableEq, Repr

/-- Advance a freed slot's generation and return it to the free list, unless it
stands at its last generation: then it is not reused. -/
def retireOrRecycle (slot : Slot) (free : List Nat) (index : Nat) : Slot × List Nat :=
  if slot.generation + 1 ≤ u32Max then
    ({ slot with generation := slot.generation + 1 }, index % 2 ^ 32 :: free)
  else
    ({ slot with generation := u32Max }, free)

namespace HandleTable

def new (domain : Option DomainId) : HandleTable := ⟨[],[],[],false,domain⟩

def len (t : HandleTable) : Nat := t.slots.countP fun slot => slot.cap.isSome

-- Indexing a `Vec` past its end is a panic. The table indexes only what its own
-- lists name, and `TableInv.listed` shows that those are slots.
def slotAt (t : HandleTable) (index : Nat) : Slot := t.slots.getD index ⟨none,0,false⟩

section Charging

variable {D : Type} (Q : Quota D)

def chargeHandle (t : HandleTable) (ds : D) : D :=
  match t.domain with
  | some d => Q.chargeHandle d ds
  | none => ds

def tryChargeHandle (t : HandleTable) (ds : D) : Bool × D :=
  match t.domain with
  | some d => Q.tryChargeHandle d ds
  | none => (true, ds)

def unchargeHandles (t : HandleTable) (count : Nat) (ds : D) : D :=
  match t.domain with
  | some d => Q.unchargeHandles d count ds
  | none => ds

/-- The quota of a reservation: one `try_charge_handle` for each of `left` more
handles, and on a refusal the `taken` charges made so far are given back. -/
def chargeReservation (t : HandleTable) : Nat → Nat → D → Bool × D
  | _, 0, ds => (true, ds)
  | taken, left + 1, ds =>
    match t.tryChargeHandle Q ds with
    | (true, ds') => t.chargeReservation (taken + 1) left ds'
    | (false, ds') => (false, t.unchargeHandles Q taken ds')

end Charging

def tryPlace (room : Nat → Bool) (cap : Capability) (t : HandleTable) :
    Except Capability (Handle × HandleTable) :=
  match t.free with
  | index :: free =>
    let slot := t.slotAt index
    .ok (Handle.new slot.generation index,
      { t with free := free, slots := t.slots.set index { slot with cap := some cap } })
  | [] =>
    if room t.slots.length then
      -- `self.slots.len() as u32`: the length is cut to 32 bits.
      let index := t.slots.length % 2 ^ 32
      .ok (Handle.new 1 index, { t with slots := t.slots ++ [⟨some cap,1,false⟩] })
    else
      .error cap

def place (room : Nat → Bool) (cap : Capability) (t : HandleTable) : Handle × HandleTable :=
  match t.tryPlace room cap with
  | .ok r => r
  | .error _ => (Handle.new 0 0, t)

def unbookLoop (keep : Nat) : List Nat → List Nat → List Nat × List Nat
  | [], free => ([], free)
  | index :: booked, free =>
    if booked.length + 1 > keep then unbookLoop keep booked (index :: free)
    else (index :: booked, free)

def unbook (keep : Nat) (t : HandleTable) : HandleTable :=
  { t with booked := (unbookLoop keep t.booked t.free).1,
           free := (unbookLoop keep t.booked t.free).2 }

def bookSlots (room : Nat → Bool) (before : Nat) : Nat → HandleTable → Bool × HandleTable
  | 0, t => (true, t)
  | count + 1, t =>
    match t.free with
    | index :: free =>
      bookSlots room before count { t with free := free, booked := index :: t.booked }
    | [] =>
      if room t.slots.length then
        bookSlots room before count
          { t with slots := t.slots ++ [⟨none,1,false⟩],
                   booked := t.slots.length % 2 ^ 32 :: t.booked }
      else
        (false, t.unbook before)

section Install

variable {D : Type} (Q : Quota D) (room : Nat → Bool) (cap : Capability) (t : HandleTable) (ds : D)

def insert : Handle × HandleTable × D :=
  let ds := t.chargeHandle Q ds
  match t.tryPlace room cap with
  | .ok (handle, t') => (handle, t', ds)
  | .error _ => (Handle.new 0 0, t, t.unchargeHandles Q 1 ds)

def insertObject (objs : Objects) (room : Nat → Bool) (object : Koid) (rights : Rights)
    (t : HandleTable) (ds : D) : Handle × HandleTable × D :=
  t.insert Q room (Capability.new objs object rights) ds

/-- Book room for `count` handles, slots first and quota second, or refuse.
`bookRoom` is the answer of `booked.try_reserve(count)`. -/
def reserve (bookRoom : Bool) (count : Nat) (t : HandleTable) (ds : D) : Bool × HandleTable × D :=
  if bookRoom then
    match t.bookSlots room t.booked.length count with
    | (false, t') => (false, t', ds)
    | (true, t') =>
      match t'.chargeReservation Q 0 count ds with
      | (true, ds') => (true, t', ds')
      | (false, ds') => (false, t'.unbook t.booked.length, ds')
  else
    (false, t, ds)

/-- Install a capability into a slot booked by `reserve`; a closed table drops it
and gives the booking's quota back. -/
def insertReserved : Handle × HandleTable × D :=
  if t.closed then
    match t.booked with
    | _ :: booked => (Handle.fromRaw 0, { t with booked := booked }, t.unchargeHandles Q 1 ds)
    | [] => (Handle.fromRaw 0, t, ds)
  else
    match t.booked with
    | index :: booked =>
      let slot := t.slotAt index
      (Handle.new slot.generation index,
        { t with booked := booked, slots := t.slots.set index { slot with cap := some cap } }, ds)
    | [] =>
      let (handle, t') := t.place room cap
      (handle, t', ds)

def releaseReservation (count : Nat) (t : HandleTable) (ds : D) : HandleTable × D :=
  let giveBack := min count t.booked.length
  (t.unbook (t.booked.length - giveBack), t.unchargeHandles Q count ds)

def tryInsertOrReturn : Except Capability Handle × HandleTable × D :=
  match t.tryChargeHandle Q ds with
  | (false, ds) => (.error cap, t, ds)
  | (true, ds) =>
    match t.tryPlace room cap with
    | .ok (handle, t') => (.ok handle, t', ds)
    | .error cap => (.error cap, t, t.unchargeHandles Q 1 ds)

def tryInsert : Option Handle × HandleTable × D :=
  match t.tryInsertOrReturn Q room cap ds with
  | (.ok handle, r) => (some handle, r)
  | (.error _, r) => (none, r)

end Install

def capOf (t : HandleTable) (handle : Handle) : Except HandleError Capability :=
  match t.slots[handle.index]? with
  | none => .error .badHandle
  | some slot =>
    if slot.generation != handle.generation then .error .badHandle
    else
      match slot.cap with
      | none => .error .badHandle
      | some cap => .ok cap

def liveCapOf (objs : Objects) (t : HandleTable) (handle : Handle) :
    Except HandleError Capability :=
  match t.capOf handle with
  | .error e => .error e
  | .ok cap => if cap.isValid objs then .ok cap else .error .revoked

def lookupTyped (objs : Objects) (t : HandleTable) (handle : Handle) (expected : ObjectType)
    (required : Rights) : Except HandleError Koid :=
  match t.capOf handle with
  | .error e => .error e
  | .ok cap =>
    if (objs cap.object).objectType != expected then .error .wrongType
    else if !cap.isValid objs then .error .revoked
    else if !cap.rights.contains required then .error .accessDenied
    else .ok cap.object

section Remove

variable {D : Type} (Q : Quota D)

def duplicate (objs : Objects) (room : Nat → Bool) (handle : Handle) (newRights : Rights)
    (t : HandleTable) (ds : D) : Except HandleError Handle × HandleTable × D :=
  match t.capOf handle with
  | .error e => (.error e, t, ds)
  | .ok cap =>
    if !cap.isValid objs then (.error .revoked, t, ds)
    else if !cap.rights.contains Rights.duplicate then (.error .accessDenied, t, ds)
    else if !cap.rights.contains newRights then (.error .accessDenied, t, ds)
    else
      match t.tryInsert Q room (Capability.derived objs cap newRights) ds with
      | (some h, r) => (.ok h, r)
      | (none, r) => (.error .limitReached, r)

def recycle (slot : Slot) (index : Nat) (t : HandleTable) : HandleTable :=
  let (slot', free) := retireOrRecycle slot t.free index
  { t with slots := t.slots.set index slot', free := free }

variable (objs : Objects)

def take (handle : Handle) (rights : Rights) (t : HandleTable) (ds : D) :
    Except HandleError Capability × HandleTable × D :=
  match t.liveCapOf objs handle with
  | .error e => (.error e, t, ds)
  | .ok cap =>
    if !cap.rights.contains rights then (.error .accessDenied, t, ds)
    else
      match t.slots[handle.index]? with
      | none => (.error .badHandle, t, ds)
      | some slot =>
        (.ok cap, t.recycle { slot with cap := none } handle.index, t.unchargeHandles Q 1 ds)

/-- Take a capability for a transfer that might fail: the slot is emptied and
reserved, and its generation is untouched. -/
def takeForTransfer (handle : Handle) (rights : Rights) (t : HandleTable) :
    Except HandleError Capability × HandleTable :=
  match t.liveCapOf objs handle with
  | .error e => (.error e, t)
  | .ok cap =>
    if !cap.rights.contains rights then (.error .accessDenied, t)
    else
      match t.slots[handle.index]? with
      | none => (.error .badHandle, t)
      | some slot =>
        let slot' := { slot with cap := none, reserved := true }
        (.ok cap, { t with slots := t.slots.set handle.index slot' })

variable (handle : Handle) (t : HandleTable) (ds : D)

def resolveTaken : HandleTable × D :=
  let t' :=
    match t.slots[handle.index]? with
    | some slot => t.recycle { slot with reserved := false } handle.index
    | none => t
  (t', t.unchargeHandles Q 1 ds)

def commitTaken : HandleTable × D :=
  t.resolveTaken Q handle ds

def abandonTaken : HandleTable × D :=
  t.resolveTaken Q handle ds

/-- The transfer did not happen: the capability goes back to its handle. A closed
table drops it and leaves the slot's generation as it was. -/
def restoreTaken (room : Nat → Bool) (handle : Handle) (cap : Capability) (t : HandleTable)
    (ds : D) : HandleTable × D :=
  if t.closed then
    let t' :=
      match t.slots[handle.index]? with
      | some slot => { t with slots := t.slots.set handle.index { slot with reserved := false } }
      | none => t
    (t', t.unchargeHandles Q 1 ds)
  else
    match t.slots[handle.index]? with
    | some slot =>
      let slot' := { slot with cap := some cap, reserved := false }
      ({ t with slots := t.slots.set handle.index slot' }, ds)
    | none => (t.insert Q room cap ds).2

/-- Close a handle. The answer names the claim whose release the close starts: the
object, when it is a claim and the table holds no other handle to it. -/
def close (handle : Handle) (t : HandleTable) (ds : D) :
    Except HandleError (Option Koid) × HandleTable × D :=
  match t.slots[handle.index]? with
  | none => (.error .badHandle, t, ds)
  | some slot =>
    match slot.cap with
    | none => (.error .badHandle, t, ds)
    | some cap =>
      if slot.generation != handle.generation then (.error .badHandle, t, ds)
      else
        let t' := t.recycle { slot with cap := none } handle.index
        let held := t'.slots.any fun s => s.cap.any fun other => other.object == cap.object
        let released :=
          if (objs cap.object).objectType == .claim && !held then some cap.object else none
        (.ok released, t', t.unchargeHandles Q 1 ds)

/-- One turn of `close_all`'s loop: the slot it leaves, whether the slot held a
capability, and whether its index goes on the free list. -/
def closeSlot (booked : List Nat) (index : Nat) (slot : Slot) : Slot × Bool × Bool :=
  if slot.reserved || booked.contains (index % 2 ^ 32) then (slot, false, false)
  else if slot.cap.isSome then
    if slot.generation + 1 ≤ u32Max then
      ({ slot with cap := none, generation := slot.generation + 1 }, true, true)
    else
      ({ slot with cap := none, generation := u32Max }, true, false)
  else
    (slot, false, slot.generation != u32Max)

/-- The loop of `close_all` from `index` on: the slots, the free list and the
number of capabilities closed. -/
def closeLoop (booked : List Nat) : Nat → List Slot → List Nat → Nat → List Slot × List Nat × Nat
  | _, [], free, closed => ([], free, closed)
  | index, slot :: rest, free, closed =>
    let (slot', had, recycled) := closeSlot booked index slot
    let r := closeLoop booked (index + 1) rest
      (if recycled then index % 2 ^ 32 :: free else free) (if had then closed + 1 else closed)
    (slot' :: r.1, r.2)

/-- Close every live handle at once. Slots with a transfer in flight and booked
slots are left to the call that will resolve them. -/
def closeAll : HandleTable × D :=
  let (slots, free, closed) := closeLoop t.booked 0 t.slots [] 0
  ({ t with slots := slots, free := free, closed := true },
    if closed > 0 then t.unchargeHandles Q closed ds else ds)

def drop : D :=
  if t.len > 0 then t.unchargeHandles Q t.len ds else ds

end Remove

end HandleTable

end LiberSystem
