import LiberSystem.Lib.Runs
import Mathlib.Logic.Function.Basic

/-!
# The walk over a subtree of Domains

`register_process`, `new_child`, and the walks of `set_frozen(true)` and `kill` of
`object/domain/mod.rs`.
-/

namespace LiberSystem.Subtree

abbrev DomainId := Nat
abbrev ProcessId := Nat

structure Domain where
  created : Bool
  children : List DomainId
  /-- Weak references: an entry stays when its process ends. -/
  processes : List ProcessId
  killed : Bool
  frozen : Bool

structure Process where
  domain : Option DomainId
  alive : Bool
  frozen : Bool
  killed : Bool

inductive Mode where
  | freeze
  | kill

def Domain.marked (D : Domain) : Mode → Bool
  | .freeze => D.frozen
  | .kill => D.killed

def Domain.mark (D : Domain) : Mode → Domain
  | .freeze => { D with frozen := true }
  | .kill => { D with killed := true }

def Process.marked (P : Process) : Mode → Bool
  | .freeze => P.frozen
  | .kill => P.killed

def Process.mark (P : Process) : Mode → Process
  | .freeze => { P with frozen := true }
  | .kill => { P with killed := true }

/-- The batch of `processes_from` and `children_from`: the live ones among the entries, until
there is no room, and where to resume. -/
def batchFrom {α : Type*} (live : α → Bool) : Nat → List α → Nat → List α × Nat
  | _, [], i => ([], i)
  | 0, _ :: _, i => ([], i)
  | room + 1, x :: rest, i =>
    if live x then
      let r := batchFrom live room rest (i + 1)
      (x :: r.1, r.2)
    else batchFrom live (room + 1) rest (i + 1)

def BATCH : Nat := 8

inductive Place where
  | enter
  | processes (index : Nat)
  | process (batch : List ProcessId) (next : Nat)
  | children (index : Nat)
  | child (batch : List DomainId) (next : Nat)

/-- How many entries of the list of processes the walk has passed. -/
def Place.passed : Place → Nat
  | .processes index | .process _ index => index
  | _ => 0

def Place.held : Place → List ProcessId
  | .process batch _ => batch
  | _ => []

structure Call where
  domain : DomainId
  place : Place

structure World where
  domains : DomainId → Domain
  processes : ProcessId → Process
  /-- The calls of the walk, the innermost first. -/
  calls : List Call

namespace World

variable (s : World)

def setDomain (d : DomainId) (D : Domain) : World :=
  { s with domains := Function.update s.domains d D }

def setProcess (p : ProcessId) (P : Process) : World :=
  { s with processes := Function.update s.processes p P }

def registerProcess (d : DomainId) (p : ProcessId) (room : Bool) : Bool × World :=
  let D := s.domains d
  if D.killed then (false, s)
  else
    let list := D.processes.filter fun q => (s.processes q).alive
    let P := if D.frozen then { s.processes p with frozen := true } else s.processes p
    if room then
      (true, (s.setDomain d { D with processes := list ++ [p] }).setProcess p
        { P with domain := some d })
    else (false, (s.setDomain d { D with processes := list }).setProcess p P)

def newChild (d c : DomainId) (room : Bool) : Bool × World :=
  let D := s.domains d
  if D.killed then (false, s)
  else if room then
    (true, (s.setDomain c ⟨true,[],[],false,D.frozen⟩).setDomain d
      { D with children := D.children ++ [c] })
  else (false, s)

def walk (s : World) (mode : Mode) : Option World :=
  match s.calls with
  | [] => none
  | ⟨d,.enter⟩ :: outer =>
    some { s.setDomain d ((s.domains d).mark mode) with calls := ⟨d,.processes 0⟩ :: outer }
  | ⟨d,.processes i⟩ :: outer =>
    let r := batchFrom (fun p => (s.processes p).alive) BATCH ((s.domains d).processes.drop i) i
    if r.1.isEmpty ∧ r.2 = i then some { s with calls := ⟨d,.children 0⟩ :: outer }
    else some { s with calls := ⟨d,.process r.1 r.2⟩ :: outer }
  | ⟨d,.process [] next⟩ :: outer => some { s with calls := ⟨d,.processes next⟩ :: outer }
  | ⟨d,.process (p :: batch) next⟩ :: outer =>
    some { s.setProcess p ((s.processes p).mark mode) with
      calls := ⟨d,.process batch next⟩ :: outer }
  | ⟨d,.children i⟩ :: outer =>
    let r := batchFrom (fun _ => true) BATCH ((s.domains d).children.drop i) i
    if r.1.isEmpty ∧ r.2 = i then some { s with calls := outer }
    else some { s with calls := ⟨d,.child r.1 r.2⟩ :: outer }
  | ⟨d,.child [] next⟩ :: outer => some { s with calls := ⟨d,.children next⟩ :: outer }
  | ⟨d,.child (c :: batch) next⟩ :: outer =>
    some { s with calls := ⟨c,.enter⟩ :: ⟨d,.child batch next⟩ :: outer }

end World

inductive Event where
  | walk
  | register (d : DomainId) (p : ProcessId) (room : Bool)
  | newChild (d c : DomainId) (room : Bool)
  | ends (p : ProcessId)

namespace World

def step (mode : Mode) (s : World) : Event → Option World
  | .walk => s.walk mode
  | .register d p room =>
    if (s.domains d).created = true ∧ (s.processes p).domain = none then
      some (s.registerProcess d p room).2
    else none
  | .newChild d c room =>
    if (s.domains d).created = true ∧ (s.domains c).created = false then
      some (s.newChild d c room).2
    else none
  | .ends p =>
    if s.calls.all fun call => !call.place.held.contains p then
      some (s.setProcess p { s.processes p with alive := false })
    else none

end World

end LiberSystem.Subtree
