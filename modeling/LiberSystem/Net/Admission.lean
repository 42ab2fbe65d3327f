import LiberSystem.Lib.Vectors

/-!
# Inbound accounting

What inbound state costs, charged before any of it is published. Releases saturate at zero, as
subtraction of naturals does.
-/

namespace LiberSystem.Net

def maxHalfOpen : Nat := 64

def maxBacklogTotal : Nat := 64

def maxTcbs : Nat := 128

def maxReceiveBytes : Nat := 2 * 1024 * 1024

def receiveBaseBytes : Nat := 16384

inductive Refusal where
  | serviceBacklog
  | listenerBacklog
  | halfOpen
  | controlBlocks
  | receiveBytes
  | noListener
deriving DecidableEq, Repr

structure ListenerSlots where
  id : Nat
  effective : Nat
  /-- Admitted SYNs whose handshake has not completed. -/
  reserved : Nat
  /-- Completed handshakes nobody has accepted. -/
  queued : Nat
deriving DecidableEq, Repr

def ListenerSlots.occupied (l : ListenerSlots) : Nat := l.reserved + l.queued

/-- How many of each refusal has happened. -/
structure Refusals where
  serviceBacklog : Nat
  listenerBacklog : Nat
  halfOpen : Nat
  controlBlocks : Nat
  receiveBytes : Nat
deriving DecidableEq, Repr

def Refusals.record (r : Refusals) (refusal : Refusal) : Refusals :=
  let up := fun n => min (n + 1) (2 ^ 32 - 1)
  match refusal with
  | .serviceBacklog => { r with serviceBacklog := up r.serviceBacklog }
  | .listenerBacklog => { r with listenerBacklog := up r.listenerBacklog }
  | .halfOpen => { r with halfOpen := up r.halfOpen }
  | .controlBlocks => { r with controlBlocks := up r.controlBlocks }
  | .receiveBytes => { r with receiveBytes := up r.receiveBytes }
  | .noListener => r

structure Admission where
  halfOpen : Nat
  controlBlocks : Nat
  receiveBytes : Nat
  listeners : List ListenerSlots
  refusals : Refusals
deriving DecidableEq, Repr

namespace Admission

def new : Admission := ⟨0,0,0,[],⟨0,0,0,0,0⟩⟩

variable (a : Admission)

def occupiedSlots : Nat := (a.listeners.map ListenerSlots.occupied).sum

def registerListener (id effective : Nat) : Admission :=
  if a.listeners.any (·.id == id) then a
  else { a with listeners := a.listeners ++ [⟨id,effective,0,0⟩] }

def withdrawListener (id : Nat) : Admission :=
  match findAt (·.id == id) a.listeners with
  | none => a
  | some (index, slots) =>
    { a with
      listeners := a.listeners.eraseIdx index
      halfOpen := a.halfOpen - slots.reserved
      controlBlocks := a.controlBlocks - slots.occupied
      receiveBytes := a.receiveBytes - slots.occupied * receiveBaseBytes }

/-- The reason to refuse a SYN, in the fixed order of precedence. -/
def synRefusal (slots : ListenerSlots) : Option Refusal :=
  if a.occupiedSlots ≥ maxBacklogTotal then some .serviceBacklog
  else if slots.occupied ≥ slots.effective then some .listenerBacklog
  else if a.halfOpen ≥ maxHalfOpen then some .halfOpen
  else if a.controlBlocks ≥ maxTcbs then some .controlBlocks
  else if a.receiveBytes + receiveBaseBytes > maxReceiveBytes then some .receiveBytes
  else none

variable (listener : Nat)

def admitSyn : Except Refusal Unit × Admission :=
  match findAt (·.id == listener) a.listeners with
  | none => (.error .noListener, a)
  | some (index, slots) =>
    match a.synRefusal slots with
    | some refusal => (.error refusal, { a with refusals := a.refusals.record refusal })
    | none =>
      (.ok (), { a with
        listeners := a.listeners.set index { slots with reserved := slots.reserved + 1 }
        halfOpen := a.halfOpen + 1
        controlBlocks := a.controlBlocks + 1
        receiveBytes := a.receiveBytes + receiveBaseBytes })

def handshakeComplete : Bool × Admission :=
  match findAt (·.id == listener) a.listeners with
  | none => (false, a)
  | some (index, slots) =>
    if slots.reserved = 0 then (false, a)
    else
      (true, { a with
        listeners := a.listeners.set index
          { slots with reserved := slots.reserved - 1, queued := slots.queued + 1 }
        halfOpen := a.halfOpen - 1 })

def accepted : Bool × Admission :=
  match findAt (·.id == listener) a.listeners with
  | none => (false, a)
  | some (index, slots) =>
    if slots.queued = 0 then (false, a)
    else
      (true, { a with
        listeners := a.listeners.set index { slots with queued := slots.queued - 1 } })

def releaseHalfOpen : Bool × Admission :=
  match findAt (·.id == listener) a.listeners with
  | none => (false, a)
  | some (index, slots) =>
    if slots.reserved = 0 then (false, a)
    else
      (true, { a with
        listeners := a.listeners.set index { slots with reserved := slots.reserved - 1 }
        halfOpen := a.halfOpen - 1
        controlBlocks := a.controlBlocks - 1
        receiveBytes := a.receiveBytes - receiveBaseBytes })

def openOutbound : Except Refusal Unit × Admission :=
  let refusal :=
    if a.controlBlocks ≥ maxTcbs then some Refusal.controlBlocks
    else if a.receiveBytes + receiveBaseBytes > maxReceiveBytes then some Refusal.receiveBytes
    else none
  match refusal with
  | some refusal => (.error refusal, { a with refusals := a.refusals.record refusal })
  | none =>
    (.ok (), { a with
      controlBlocks := a.controlBlocks + 1
      receiveBytes := a.receiveBytes + receiveBaseBytes })

def close (receive : Nat) : Admission :=
  { a with
    controlBlocks := a.controlBlocks - 1
    receiveBytes := a.receiveBytes - receive }

variable (a : Admission) (listener : Nat)

theorem openOutbound_cases :
    (∃ refusal refusals, a.openOutbound = (.error refusal, { a with refusals := refusals })) ∨
      a.openOutbound = (.ok (), { a with
        controlBlocks := a.controlBlocks + 1
        receiveBytes := a.receiveBytes + receiveBaseBytes }) := by
  unfold openOutbound
  dsimp only
  split
  · exact .inl ⟨_,_,rfl⟩
  · exact .inr rfl

theorem admitSyn_cases :
    (∃ refusal refusals, a.admitSyn listener = (.error refusal, { a with refusals := refusals })) ∨
      ∃ index slots, findAt (·.id == listener) a.listeners = some (index, slots) ∧
        slots.occupied < slots.effective ∧
        a.admitSyn listener = (.ok (), { a with
          listeners := a.listeners.set index { slots with reserved := slots.reserved + 1 }
          halfOpen := a.halfOpen + 1
          controlBlocks := a.controlBlocks + 1
          receiveBytes := a.receiveBytes + receiveBaseBytes }) := by
  unfold admitSyn
  split
  · exact .inl ⟨_,a.refusals,rfl⟩
  next index slots hfind =>
  split
  · exact .inl ⟨_,_,rfl⟩
  next hrefusal =>
  refine .inr ⟨index,slots,hfind,?_,rfl⟩
  unfold synRefusal at hrefusal
  by_contra hfull
  rw [Nat.not_lt] at hfull
  simp [hfull] at hrefusal
  split at hrefusal <;> cases hrefusal

end Admission

end LiberSystem.Net
