import LiberSystem.Lib.Vectors

/-!
# The table of I/O port grants

The kernel keeps three lists of port ranges under one lock: the blocks the firmware declares, the
ranges its own drivers have installed and the spans it has granted. The heap's answer to each
`try_reserve` is a parameter of the call.
-/

namespace LiberSystem

def portSpace : Nat := 0x10000

/-- The parts of the reserved set. -/
inductive ReservedPart where
  | fixed
  | firmware
  | installed
deriving DecidableEq, Repr

inductive PortRefusal where
  | outOfRange
  | reserved (part : ReservedPart)
  | granted
  | retired
  | noMemory
deriving DecidableEq, Repr

/-- The ports no mint may ever take, as first port and count. -/
def fixedPorts : List (Nat × Nat) :=
  [(0x00, 0x20),(0x20, 2),(0x40, 4),(0x61, 1),(0x70, 2),(0xA0, 2),(0xC0, 0x20),(0xCF8, 1),
    (0xCFA, 6),(0x510, 12)]

/-- A kernel item's own install: `count` holds of the ports from `base` to `stop`. -/
structure PortInstall where
  item : Nat
  base : Nat
  stop : Nat
  count : Nat
deriving DecidableEq, Repr

/-- A span no other grant may take. `returns` is the install a console grant was
moved out of, with its hold count. -/
structure PortSpan where
  base : Nat
  stop : Nat
  owner : Nat
  returns : Option (Nat × Nat)
deriving DecidableEq, Repr

def retiredOwner : Nat := 0

structure PortTable where
  firmware : List (Nat × Nat)
  installs : List PortInstall
  spans : List PortSpan
deriving DecidableEq, Repr

def endOf (base len : Nat) : Option Nat :=
  if len = 0 then none
  else if base + len > portSpace then none
  else some (base + len)

def overlaps (base stop otherBase otherStop : Nat) : Bool :=
  base < otherStop && otherBase < stop

def PortInstall.isFor (i : PortInstall) (item base stop : Nat) : Bool :=
  i.item == item && i.base == base && i.stop == stop

namespace PortTable

def empty : PortTable := ⟨[],[],[]⟩

variable (t : PortTable)

def reserved (base stop : Nat) : Option ReservedPart :=
  if fixedPorts.any fun (first, count) => overlaps base stop first (first + count) then
    some .fixed
  else if t.firmware.any fun (first, stop') => overlaps base stop first stop' then
    some .firmware
  else if t.installs.any fun i => overlaps base stop i.base i.stop then
    some .installed
  else none

def taken (base stop : Nat) : Option PortRefusal :=
  (t.spans.find? fun s => overlaps base stop s.base s.stop).map fun s =>
    if s.owner = retiredOwner then .retired else .granted

variable (room : Bool)

def reserveFirmware (base len : Nat) : Bool × PortTable :=
  match endOf base len with
  | none => (false, t)
  | some stop =>
    if !room then (false, t)
    else (true, { t with firmware := t.firmware ++ [(base, stop)] })

def grant (base len owner : Nat) : Except PortRefusal Unit × PortTable :=
  match endOf base len with
  | none => (.error .outOfRange, t)
  | some stop =>
    match t.reserved base stop with
    | some part => (.error (.reserved part), t)
    | none =>
      match t.taken base stop with
      | some refusal => (.error refusal, t)
      | none =>
        if !room then (.error .noMemory, t)
        else (.ok (), { t with spans := t.spans ++ [⟨base,stop,owner,none⟩] })

/-- The handoff of a range that `item` has installed. The install leaves the table
before the check and is put back when the check refuses. -/
def grantFromInstall (item base len owner : Nat) : Except PortRefusal Unit × PortTable :=
  match endOf base len with
  | none => (.error .outOfRange, t)
  | some stop =>
    match findAt (·.isFor item base stop) t.installs with
    | none =>
      match t.taken base stop with
      | some refusal => (.error refusal, t)
      | none => (.error (.reserved ((t.reserved base stop).getD .installed)), t)
    | some (pos, held) =>
      if !room then (.error .noMemory, t)
      else
        let u := { t with installs := swapRemove t.installs pos }
        match ((u.reserved base stop).map PortRefusal.reserved).or (u.taken base stop) with
        | some refusal => (.error refusal, { u with installs := u.installs ++ [held] })
        | none =>
          (.ok (), { u with
            spans := u.spans ++ [⟨base,stop,owner,some (held.item, held.count)⟩] })

def endGrant (owner : Nat) (confirmed : Bool) : PortTable :=
  match findAt (·.owner == owner) t.spans with
  | none => t
  | some (pos, span) =>
    match span.returns with
    | some (item, count) =>
      if room then
        { t with
          spans := swapRemove t.spans pos
          installs := t.installs ++ [⟨item,span.base,span.stop,count⟩] }
      else { t with spans := t.spans.set pos { span with owner := retiredOwner } }
    | none =>
      if confirmed then { t with spans := swapRemove t.spans pos }
      else { t with spans := t.spans.set pos { span with owner := retiredOwner } }

def install (item base len : Nat) : Except PortRefusal Unit × PortTable :=
  match endOf base len with
  | none => (.error .outOfRange, t)
  | some stop =>
    match findAt (·.isFor item base stop) t.installs with
    | some (pos, held) =>
      -- the count is a `u32` and saturates
      let counted := { held with count := min (held.count + 1) (2 ^ 32 - 1) }
      (.ok (), { t with installs := t.installs.set pos counted })
    | none =>
      match t.taken base stop with
      | some refusal => (.error refusal, t)
      | none =>
        match t.reserved base stop with
        | some part => (.error (.reserved part), t)
        | none =>
          if !room then (.error .noMemory, t)
          else (.ok (), { t with installs := t.installs ++ [⟨item,base,stop,1⟩] })

def uninstall (item base len : Nat) : Bool × PortTable :=
  match endOf base len with
  | none => (false, t)
  | some stop =>
    match findAt (·.isFor item base stop) t.installs with
    | none => (false, t)
    | some (pos, held) =>
      if held.count - 1 = 0 then (true, { t with installs := swapRemove t.installs pos })
      else (true, { t with installs := t.installs.set pos { held with count := held.count - 1 } })

end PortTable

end LiberSystem
