import LiberSystem.Kernel.Sched.Shared

/-!
# The system calls that wait

`sys_wait`, `sys_wait_any` and `sys_waitset_wait`, with `park_if_frozen` and the preemption point,
over the objects of `Shared`: the code that a thread runs between two parks, read by read.
-/

namespace LiberSystem.Sched

variable {D : Type}

section

variable (lay : Layout) (k : Koid)

def isReadable : Check (Shared D) :=
  (Check.test fun ω => !(ω.endpoints k).channel.inbox.isEmpty).orElse
    (Check.test fun ω => !(ω.endpoints (lay.peer k)).alive)

def isWritable : Check (Shared D) :=
  (Check.test fun ω => !(ω.endpoints (lay.peer k)).alive).orElse
    (Check.test fun ω => decide ((ω.endpoints (lay.peer k)).channel.depth <
      (ω.endpoints (lay.peer k)).channel.limit.val))

def isTerminated (p : Koid) : Check (Shared D) :=
  (Check.test fun ω => (ω.processes p).killed).orElse
    (Check.test fun ω => (ω.processes p).exited)

def finished (g : Koid) : Check (Shared D) :=
  Check.all ((lay.members g).map fun p =>
    (Check.test fun ω => (ω.processes p).gone).orElse (isTerminated p))

def objectReadyFor (writable : Bool) : Check (Shared D) :=
  match lay.kind k with
  | .channel => if writable then isWritable lay k else isReadable lay k
  | .event => Check.test fun ω => ω.signaled k
  | .process => isTerminated k
  | .processGroup => finished lay k
  | .waitSet | .other => .done false

def objectReady : Check (Shared D) := objectReadyFor lay k false

def anyMemberReady (s : Koid) : Check (Shared D) :=
  .read (fun ω => (ω.sets s).phase = .idle) fun ω =>
    Check.any ((ω.sets s).members.map (objectReady lay))

end

/-- The arguments of a wait, resolved: the objects with the sense they are waited on, and the
koids to register on; or a set. -/
inductive Wait where
  | objects (objects : List (Koid × Bool)) (koids : List Koid) (any : Bool)
      (deadline : Option Nat) (mem : ∀ o ∈ objects, o.1 ∈ koids)
  | set (s : Koid) (deadline : Option Nat)

variable (lay : Layout) (ω : Shared D)

def liveMembers (k : Koid) : List Koid :=
  match lay.kind k with
  | .processGroup => (lay.members k).filter fun p => !(ω.processes p).gone
  | _ => []

namespace Wait

/-- `sys_wait`. A group is registered on with its members. -/
def sysWait (k : Koid) (writable : Bool) (deadline : Option Nat) : Wait :=
  .objects [(k, writable)] (k :: liveMembers lay ω k) (decide (lay.kind k = .processGroup))
    deadline (by simp)

def sysWaitAny (ks : List Koid) (deadline : Option Nat) : Wait :=
  .objects (ks.map fun k => (k, false)) (ks.flatMap fun k => k :: liveMembers lay ω k) true
    deadline (by
      intro o ho
      obtain ⟨k,hk,rfl⟩ := List.mem_map.mp ho
      exact List.mem_flatMap.mpr ⟨k,hk,List.mem_cons_self⟩)

def ready : Wait → Check (Shared D)
  | .objects os _ _ _ _ => Check.any (os.map fun o => objectReadyFor lay o.1 o.2)
  | .set s _ => anyMemberReady lay s

def park (w : Wait) : Park (Shared D) :=
  match w with
  | .objects _ koids any deadline _ => ⟨koids,deadline,w.ready lay,any⟩
  | .set s deadline => ⟨[s],deadline,w.ready lay,false⟩

end Wait

def heldPark (p : Koid) : Park (Shared D) := ⟨[p],none,.done false,false⟩

def frozenPark (p : Koid) : Park (Shared D) :=
  ⟨[p],none,(Check.test fun ω => !(ω.processes p).frozen).orElse
    (Check.test fun ω => (ω.processes p).killed),false⟩

def preemptPark (p : Koid) : Park (Shared D) :=
  ⟨[p],none,(Check.test fun ω => !(ω.processes p).stopped).andThen
    (Check.test fun ω => !(ω.processes p).frozen),false⟩

/-- Which park came before the top of the loop of a wait. -/
inductive Why where
  | entry
  | held
  | unready
  deriving DecidableEq

inductive Point (D : Type) where
  | user
  | top (why : Why) (w : Wait)
  | stopped (w : Wait)
  | frozen (w : Wait)
  | scan (w : Wait) (rest : Check (Shared D))
  | isFrozen
  | isKilled
  /-- At the preemption point: at `is_killed`, at the two halves of `is_held`, at the second
  `is_frozen`, and after the park. -/
  | tick
  | tickStopped
  | tickFrozen
  | tickHeld
  | ticked (frozen : Bool)
  | retired

inductive Choice where
  | wait (k : Koid) (writable : Bool) (deadline : Option Nat)
  | waitAny (ks : List Koid) (deadline : Option Nat)
  | waitSet (s : Koid) (deadline : Option Nat)
  | parkIfFrozen
  | tick
  | go
  | giveUp

def Point.move (me : Koid) (ω : Shared D) : Point D → Choice → Option (Next (Shared D) (Point D))
  | .user, .wait k writable deadline =>
    some (.goto (.top .entry (.sysWait lay ω k writable deadline)))
  | .user, .waitAny ks deadline => some (.goto (.top .entry (.sysWaitAny lay ω ks deadline)))
  | .user, .waitSet s deadline => some (.goto (.top .entry (.set s deadline)))
  | .user, .parkIfFrozen => some (.goto .isFrozen)
  | .user, .tick => some (.goto .tick)
  | .top _ w, .go => some (.goto (if (ω.processes me).killed then .retired else .stopped w))
  | .stopped w, .go =>
    if (ω.processes me).stopped then some (.block (heldPark me) (.top .held w))
    else some (.goto (.frozen w))
  | .frozen w, .go =>
    if (ω.processes me).frozen then some (.block (heldPark me) (.top .held w))
    else some (.goto (.scan w (w.ready lay)))
  | .scan w (.read free next), .go =>
    if free ω then some (.goto (.scan w (next ω))) else none
  | .scan _ (.done true), .go => some (.goto .user)
  | .scan w (.done false), .go => some (.block (w.park lay) (.top .unready w))
  | .scan _ _, .giveUp => some (.goto .user)
  | .isFrozen, .go => some (.goto (if (ω.processes me).frozen then .isKilled else .user))
  | .isKilled, .go =>
    if (ω.processes me).killed then some (.goto .user)
    else some (.block (frozenPark me) .isFrozen)
  | .tick, .go => some (.goto (if (ω.processes me).killed then .retired else .tickStopped))
  | .tickStopped, .go =>
    some (.goto (if (ω.processes me).stopped then .tickHeld else .tickFrozen))
  | .tickFrozen, .go => some (.goto (if (ω.processes me).frozen then .tickHeld else .user))
  | .tickHeld, .go => some (.block (preemptPark me) (.ticked (ω.processes me).frozen))
  | .ticked again, .go => some (.goto (if again then .isFrozen else .user))
  | _, _ => none

def kernel (Q : Quota D) : Machine (Shared D) (Point D) Op Choice where
  move t l x ω := l.move lay (lay.process t) ω x
  perform op ω := ω.perform lay Q op
  observed ω := decide (ω.observerCount ≠ 0)
  watchers ω k := ω.watchers k

/-- The park of a thread is the one that its way back tells. -/
def Point.Parks (me : Koid) (p : Park (Shared D)) : Point D → Prop
  | .top .held _ => p = heldPark me
  | .top .unready w => p = w.park lay
  | .isFrozen => p = frozenPark me
  | .ticked _ => p = preemptPark me
  | _ => False

theorem Point.parks_of_move {lay : Layout} {me : Koid} {ω : Shared D} {l l' : Point D}
    {x : Choice} {p : Park (Shared D)} (h : l.move lay me ω x = some (.block p l')) :
    l'.Parks lay me p := by
  unfold Point.move at h
  split at h <;> (try split at h) <;> first | cases h; rfl | cases h

namespace Small

/-- The endpoints 1 and 2 of a channel, the event 3, the set 4, groups of process 1001 from 200
on, and a process for each thread. -/
def layout : Layout where
  kind k :=
    if k ≥ 1000 then .process
    else if k ≥ 200 then .processGroup
    else if k = 1 ∨ k = 2 then .channel
    else if k = 3 then .event
    else if k = 4 then .waitSet
    else .other
  peer k := if k = 1 then 2 else if k = 2 then 1 else k
  peer_peer k := by grind
  members _ := [1001]
  process t := 1000 + t
  threads p := [p - 1000]
  mem_threads t := by simp

def quota : Quota Unit where
  tryChargeHandle _ _ := (true, ())
  chargeHandle _ _ := ()
  unchargeHandles _ _ _ := ()
  tryChargeIpcQueue _ _ _ := (true, ())
  unchargeIpcQueue _ _ _ := ()

def objects : Shared Unit where
  accounts := ()
  endpoints _ := Endpoint.new 4
  signaled _ := false
  processes _ := ⟨false,false,false,false,false,[]⟩
  groups _ := .absent
  sets _ := ⟨[],.idle,0⟩
  observers _ := []
  observerCount := 0

def start : State (Shared Unit) (Point Unit) where
  objects := objects
  threads _ := ⟨false,.ready,true,none,.run .user⟩
  cores _ := ⟨none,none,[]⟩
  buckets _ := []
  timed := []
  wakers _ := ⟨[],[],false,false⟩

theorem start_start : Start start :=
  ⟨fun _ => ⟨rfl,rfl,rfl,.user,rfl⟩,fun _ => rfl,fun _ => rfl,rfl,fun _ => rfl⟩

def enter (x : Choice) : List (Event Op Choice) := [.start 0 0,.idle 0,.move 0 x]

def go (n : Nat) : List (Event Op Choice) := List.replicate n (.move 0 .go)

def parks (n : Nat) : List (Event Op Choice) := List.replicate n (.park 0 true)

end Small

end LiberSystem.Sched
