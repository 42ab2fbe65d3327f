import LiberSystem.Kernel.Object.ChannelDelivery
import LiberSystem.Kernel.Sched.Parking

/-!
# The objects that threads wait on

An operation is the change it publishes, under the lock or by an atomic store, and the wakes it
sends after that. `WaitSet::add` and `remove` are two steps each, and `Drop for WaitSet` has one for
each member. An object stays for as long as somebody holds a reference.
-/

namespace LiberSystem.Sched

def MAX_SETS_PER_OBJECT : Nat := 4

def MAX_GROUP_MEMBERS : Nat := 64

def MAX_WAIT_SET_MEMBERS : Nat := 256

/-- What a koid names. -/
inductive Kind where
  | channel
  | event
  | process
  | processGroup
  | waitSet
  | other
  deriving DecidableEq

/-- What does not change: what each koid names, the other end of each endpoint, the members of
each group, and the threads of each process. -/
structure Layout where
  kind : Koid → Kind
  peer : Koid → Koid
  peer_peer : ∀ k, peer (peer k) = k
  members : Koid → List Koid
  process : ThreadId → Koid
  threads : Koid → List ThreadId
  mem_threads : ∀ t, t ∈ threads (process t)

structure Process where
  stopped : Bool
  frozen : Bool
  killed : Bool
  exited : Bool
  gone : Bool
  groups : List Koid

def Process.isHeld (p : Process) : Bool := p.stopped || p.frozen

def Process.isTerminated (p : Process) : Bool := p.killed || p.exited

/-- A group, before it is created, while somebody holds a reference to it, and then. -/
inductive GroupPhase where
  | absent
  | alive
  | gone
  deriving DecidableEq

/-- Who holds the lock of a set's membership. -/
inductive SetPhase where
  | idle
  /-- `add`, before the registration of the new member's observer. -/
  | adding (koid : Koid)
  /-- `remove`, before the observer goes. -/
  | removing (koid : Koid) (removed : Nat)
  /-- `drop`, with the members whose observers are left. -/
  | dropping (rest : List Koid)
  | gone
  deriving DecidableEq

structure WaitSet where
  members : List Koid
  phase : SetPhase
  /-- The wait registrations that the set has charged to its Domain. -/
  charged : Nat

def WaitSet.settled (set : WaitSet) : List Koid :=
  match set.phase with
  | .adding koid => set.members.filter (· ≠ koid)
  | .idle | .removing _ _ => set.members
  | .dropping _ | .gone => []

structure SetObserver where
  member : Koid
  set : Koid
  deriving DecidableEq

structure Shared (D : Type) where
  accounts : D
  endpoints : Koid → Endpoint
  signaled : Koid → Bool
  processes : Koid → Process
  groups : Koid → GroupPhase
  sets : Koid → WaitSet
  observers : Nat → List SetObserver
  observerCount : Nat

inductive Op where
  | send (k : Koid) (id : Nat) (bytes : List UInt8) (caps : List Capability)
      (sender : Option DomainId) (ring : Bool)
  | recv (k : Koid)
  | recvIdentified (k : Koid) (id bytesCap capSlots : Nat)
  | returnToHead (k : Koid) (n : Nat)
  | commitDelivery (k : Koid) (n : Nat)
  | close (k : Koid)
  | signal (k : Koid)
  /-- `Process::terminate`, which a signal follows with a wake of every thread. -/
  | terminate (p : Koid) (signal : Bool)
  | markExited (p : Koid)
  | dropProcess (p : Koid)
  | sigStop (p : Koid)
  | sigCont (p : Koid)
  | freeze (p : Koid)
  | thaw (p : Koid)
  | createGroup (g : Koid)
  | dropGroup (g : Koid)
  /-- `room` is the answer of a reservation, `quota` that of the Domain. -/
  | add (s m : Koid) (room quota : Bool)
  | addObserver (s : Koid) (room : Bool)
  | remove (s k : Koid)
  | removeObserver (s : Koid)
  | dropSet (s : Koid)
  | dropObserver (s : Koid)

namespace Shared

variable {D : Type} (ω : Shared D) (k : Koid)

def setEndpoint (e : Endpoint) : Shared D :=
  { ω with endpoints := Function.update ω.endpoints k e }

def setProcess (p : Koid) (process : Process) : Shared D :=
  { ω with processes := Function.update ω.processes p process }

def setSet (s : Koid) (set : WaitSet) : Shared D :=
  { ω with sets := Function.update ω.sets s set }

def upgrade : Option Channel :=
  if (ω.endpoints k).alive then some (ω.endpoints k).channel else none

def message (id : Nat) (bytes : List UInt8) (caps : List Capability)
    (sender : Option DomainId) : Message :=
  { Message.new id bytes caps with
    stamp := (ω.endpoints k).accepted.length, sender := sender }

def observersOf : List SetObserver :=
  ω.observers (k % WAIT_BUCKET_COUNT)

def setObservers (l : List SetObserver) : Shared D :=
  { ω with observers := Function.update ω.observers (k % WAIT_BUCKET_COUNT) l }

def watchers : List Koid :=
  (((ω.observersOf k).filter fun o => o.member = k).map SetObserver.set).take MAX_SETS_PER_OBJECT

variable (lay : Layout)

def live (ω : Shared D) (k : Koid) : Bool :=
  match lay.kind k with
  | .channel => (ω.endpoints k).alive
  | .process => !(ω.processes k).gone
  | .processGroup => ω.groups k = .alive
  | .event | .waitSet | .other => true

/-- The new observer of `register_set_observer`, which holds the lock over both changes. -/
def registerSetObserver (member set : Koid) : Shared D :=
  { ω.setObservers member (ω.observersOf member ++ [⟨member,set⟩]) with
    observerCount := ω.observerCount + 1 }

def unregisterSetObserver (member set : Koid) : Shared D :=
  let left := (ω.observersOf member).filter fun o => ¬ (o.member = member ∧ o.set = set)
  { ω.setObservers member left with
    observerCount := ω.observerCount - ((ω.observersOf member).length - left.length) }

/-- The wakes of `record_in_groups`: those of the groups that still exist, as far as its
array goes. -/
def recordInGroups (p : Koid) : List Wake :=
  (((ω.processes p).groups.filter fun g => ω.groups g = .alive).take MAX_GROUP_MEMBERS).map
    Wake.object

def mayGroup (ω : Shared D) (g : Koid) : Bool :=
  decide (lay.kind g = .processGroup) && decide (ω.groups g = .absent) &&
    !(lay.members g).isEmpty && decide ((lay.members g).length ≤ MAX_GROUP_MEMBERS) &&
    decide (lay.members g).Nodup &&
    (lay.members g).all fun p => decide (lay.kind p = .process) && !(ω.processes p).gone

def joinGroup (ω : Shared D) (g : Koid) : Shared D :=
  { ω with
    groups := Function.update ω.groups g .alive
    processes := fun p =>
      if p ∈ lay.members g then
        { ω.processes p with
          groups := ((ω.processes p).groups.filter fun g => ω.groups g = .alive) ++ [g] }
      else ω.processes p }

def perform (Q : Quota D) (ω : Shared D) : Op → Option (Shared D × List Wake)
  | .send k id bytes caps sender ring =>
    let dst := lay.peer k
    match Channel.sendInner Q ring (ω.message dst id bytes caps sender) sender (ω.upgrade dst)
      ω.accounts with
    | (.ok ch, accounts) =>
      let e := ω.endpoints dst
      some ({ ω with accounts := accounts }.setEndpoint dst
        { e with channel := ch
                 accepted := e.accepted ++ [ω.message dst id bytes caps sender] },
        [.object dst])
    | (.error _, accounts) => some ({ ω with accounts := accounts }, [])
  | .recv k =>
    let e := ω.endpoints k
    if e.alive then
      match e.channel.recv Q (!(ω.endpoints (lay.peer k)).alive) ω.accounts with
      | (.ok (msg, wakes), ch, accounts) =>
        some ({ ω with accounts := accounts }.setEndpoint k
          { e with channel := ch, delivered := e.delivered ++ [msg] },
          if wakes then [.object (lay.peer k)] else [])
      | (.error _, _, _) => some (ω, [])
    else none
  | .recvIdentified k id bytesCap capSlots =>
    let e := ω.endpoints k
    if e.alive then
      match e.channel.recvIdentified (!(ω.endpoints (lay.peer k)).alive) id bytesCap capSlots with
      | .ok (msg, ch) =>
        some (ω.setEndpoint k { e with channel := ch, taken := e.taken ++ [msg] }, [])
      | .error _ => some (ω, [])
    else none
  | .returnToHead k n =>
    let e := ω.endpoints k
    if e.alive then
      (e.taken[n]?).map fun msg =>
        (ω.setEndpoint k
          { e with channel := e.channel.returnToHead msg, taken := e.taken.eraseIdx n },
          [.object k])
    else none
  | .commitDelivery k n =>
    let e := ω.endpoints k
    if e.alive then
      (e.taken[n]?).map fun msg =>
        let r := e.channel.commitDelivery Q (!(ω.endpoints (lay.peer k)).alive) msg ω.accounts
        ({ ω with accounts := r.2.2 }.setEndpoint k
          { e with channel := r.2.1
                   taken := e.taken.eraseIdx n
                   delivered := e.delivered ++ [r.1.1] },
          if r.1.2 then [.object (lay.peer k)] else [])
    else none
  | .close k =>
    let e := ω.endpoints k
    if e.alive ∧ e.taken = [] then
      some ({ ω with accounts := Channel.drainInbox Q e.channel.inbox ω.accounts }.setEndpoint k
        { e with channel := { e.channel with inbox := [] }, alive := false },
        if (ω.endpoints (lay.peer k)).alive then [.object (lay.peer k)] else [])
    else none
  | .signal k => some ({ ω with signaled := Function.update ω.signaled k true }, [.object k])
  | .terminate p signal =>
    some (ω.setProcess p { ω.processes p with killed := true },
      ω.recordInGroups p ++ .object p :: if signal then (lay.threads p).map Wake.thread else [])
  | .markExited p =>
    some (ω.setProcess p { ω.processes p with exited := true },
      ω.recordInGroups p ++ [.object p])
  | .dropProcess p =>
    some (ω.setProcess p { ω.processes p with gone := true },
      if (ω.processes p).isTerminated then [] else ω.recordInGroups p)
  | .sigStop p =>
    some (ω.setProcess p { ω.processes p with stopped := true },
      (lay.threads p).map Wake.thread)
  | .sigCont p => some (ω.setProcess p { ω.processes p with stopped := false }, [.object p])
  | .freeze p => some (ω.setProcess p { ω.processes p with frozen := true }, [])
  | .thaw p => some (ω.setProcess p { ω.processes p with frozen := false }, [.object p])
  | .createGroup g => if ω.mayGroup lay g then some (ω.joinGroup lay g, []) else none
  | .dropGroup g =>
    if ω.groups g = .alive then
      some ({ ω with groups := Function.update ω.groups g .gone }, [])
    else none
  | .add s m room quota =>
    let set := ω.sets s
    if set.phase = .idle ∧ ω.live lay m then
      if lay.kind m = .waitSet ∨ m ∈ set.members ∨ set.members.length ≥ MAX_WAIT_SET_MEMBERS ∨
          room = false ∨ quota = false then some (ω, [])
      else
        some (ω.setSet s ⟨set.members ++ [m],.adding m,set.charged + 1⟩, [])
    else none
  | .addObserver s room =>
    let set := ω.sets s
    match set.phase with
    | .adding m =>
      if ((ω.observersOf m).countP fun o => o.member = m) ≥ MAX_SETS_PER_OBJECT ∨ room = false then
        some (ω.setSet s ⟨set.members.dropLast,.idle,set.charged - 1⟩, [])
      else
        some ((ω.registerSetObserver m s).setSet s { set with phase := .idle }, [])
    | _ => none
  | .remove s k =>
    let set := ω.sets s
    if set.phase = .idle then
      let left := set.members.filter (· ≠ k)
      if left.length = set.members.length then some (ω, [])
      else
        some (ω.setSet s ⟨left,.removing k (set.members.length - left.length),set.charged⟩, [])
    else none
  | .removeObserver s =>
    let set := ω.sets s
    match set.phase with
    | .removing k n =>
      some ((ω.unregisterSetObserver k s).setSet s ⟨set.members,.idle,set.charged - n⟩, [])
    | _ => none
  | .dropSet s =>
    let set := ω.sets s
    if set.phase = .idle then some (ω.setSet s { set with phase := .dropping set.members }, [])
    else none
  | .dropObserver s =>
    let set := ω.sets s
    match set.phase with
    | .dropping (m :: rest) =>
      some ((ω.unregisterSetObserver m s).setSet s { set with phase := .dropping rest }, [])
    | .dropping [] =>
      some (ω.setSet s { set with phase := .gone, charged := set.charged - set.members.length }, [])
    | _ => none

end Shared

end LiberSystem.Sched
