import LiberSystem.Lib.Forest
import LiberSystem.Lib.Runs

/-!
# Freezing a subtree

`sys_domain_freeze` of `syscall/mod.rs`, with `park_if_frozen` at the return of a syscall and
`on_timer_preempt` of `sched/mod.rs`. Each read of a flag or of the count is a step. A wake may come
at any time and from anywhere.
-/

namespace LiberSystem.Freeze

abbrev DomainId := Nat
abbrev ProcessId := Nat
abbrev ThreadId := Nat
abbrev CallId := Nat

structure Process where
  frozen : Bool
  stopped : Bool
  killed : Bool

inductive Place where
  | user
  /-- In a syscall; `blocked` in a wait of it, or on the way. -/
  | syscall (blocked : Bool)
  /-- In `park_if_frozen`: before the read of the count, at the head of the loop, and in
  `block_on_flagged`. -/
  | returning
  | checking
  | parked (blocked : Bool)
  /-- In `on_timer_preempt`: before the reads of the flags, between them, and in
  `block_on_flagged`, with the flag `frozen` as it was read. -/
  | ticked
  | held
  | tickParked (frozen blocked : Bool)
  /-- Nothing more is looked at on the way to user mode. -/
  | leaving
  | retired
  deriving DecidableEq

inductive Action where
  | enter
  | block
  | wake
  | finish
  | retire
  | readCount
  | check
  | unpark
  | tick
  | readHeld
  | readFrozen
  | resume

/-- A step of a thread of the process `P`; `freezes` is `FREEZES`. -/
def Place.act (freezes : Nat) (P : Process) : Place → Action → Option Place
  | .user, .enter => some (.syscall false)
  | .syscall false, .block => some (.syscall true)
  | .syscall true, .wake => some (.syscall false)
  | .syscall false, .retire => if P.killed then some .retired else none
  | .syscall false, .finish => some .returning
  | .returning, .readCount => some (if freezes = 0 then .leaving else .checking)
  | .checking, .check => some (if P.frozen && !P.killed then .parked false else .leaving)
  | .parked false, .block => some (.parked true)
  | .parked true, .wake => some (.parked false)
  | .parked false, .unpark => some .checking
  | .user, .tick => some .ticked
  | .ticked, .readHeld =>
    if P.killed then some .retired
    else some (if P.stopped || P.frozen then .held else .leaving)
  | .held, .readFrozen => some (.tickParked P.frozen false)
  | .tickParked frozen false, .block => some (.tickParked frozen true)
  | .tickParked frozen true, .wake => some (.tickParked frozen false)
  | .tickParked frozen false, .unpark => some (if frozen then .returning else .leaving)
  | .leaving, .resume => some .user
  | _, _ => none

/-- What `quiescent` lets pass: the thread is blocked, or it has exited. -/
def Place.quiet : Place → Bool
  | .syscall true | .parked true | .tickParked _ true | .retired => true
  | _ => false

structure Layout where
  forest : Forest
  domain : ProcessId → DomainId
  process : ThreadId → ProcessId
  threads : List ThreadId

def Layout.under (L : Layout) (d : DomainId) (p : ProcessId) : Bool :=
  decide (d ∈ L.forest.path (L.domain p))

/-- A freeze that waits for the subtree of `domain`, with the threads it has seen quiet. -/
structure Call where
  domain : DomainId
  seen : List ThreadId

structure World where
  freezes : Nat
  domains : DomainId → Bool
  processes : ProcessId → Process
  places : ThreadId → Place
  calls : CallId → Option Call
  /-- The Domains on which the freezes in `freezes` were called. -/
  counted : List DomainId

inductive Event where
  /-- The freeze, up to its wait; a look at a thread while it waits; its end with `0`, and with
  `ERR_TIMED_OUT`. -/
  | freeze (c : CallId) (d : DomainId)
  | look (c : CallId) (t : ThreadId)
  | complete (c : CallId)
  | timeout (c : CallId)
  | thaw (d : DomainId)
  | stop (p : ProcessId)
  | cont (p : ProcessId)
  | kill (p : ProcessId)
  | act (t : ThreadId) (a : Action)

namespace World

def new (places : ThreadId → Place) : World where
  freezes := 0
  domains _ := false
  processes _ := ⟨false,false,false⟩
  places := places
  calls _ := none
  counted := []

/-- `set_frozen` on `d`: every Domain of the subtree and every process. -/
def setFrozen (L : Layout) (s : World) (d : DomainId) (on : Bool) : World :=
  { s with
    domains := fun x => if d ∈ L.forest.path x then on else s.domains x
    processes := fun p =>
      if L.under d p then { s.processes p with frozen := on } else s.processes p }

variable (s : World)

def setProcess (p : ProcessId) (P : Process) : World :=
  { s with processes := Function.update s.processes p P }

def setCall (c : CallId) (call : Option Call) : World :=
  { s with calls := Function.update s.calls c call }

def setFreezes (freezes : Nat) (counted : List DomainId) : World :=
  { s with freezes := freezes, counted := counted }

def freezeBegan (d : DomainId) : World :=
  s.setFreezes ((s.freezes + 1) % 2 ^ 32) (d :: s.counted)

def freezeEnded (d : DomainId) : World :=
  s.setFreezes ((s.freezes + (2 ^ 32 - 1)) % 2 ^ 32) (s.counted.erase d)

def step (L : Layout) (s : World) : Event → Option World
  | .freeze c d =>
    if (s.calls c).isNone then
      let begun := if s.domains d then s else s.freezeBegan d
      some ((begun.setFrozen L d true).setCall c (some ⟨d,[]⟩))
    else none
  | .look c t =>
    match s.calls c with
    | some call =>
      if (s.places t).quiet then some (s.setCall c (some { call with seen := t :: call.seen }))
      else none
    | none => none
  | .complete c =>
    match s.calls c with
    | some call =>
      if ∀ t ∈ L.threads, L.under call.domain (L.process t) → t ∈ call.seen then
        some (s.setCall c none)
      else none
    | none => none
  | .timeout c => some (s.setCall c none)
  | .thaw d => some (if s.domains d then (s.setFrozen L d false).freezeEnded d else s)
  | .stop p => some (s.setProcess p { s.processes p with stopped := true })
  | .cont p => some (s.setProcess p { s.processes p with stopped := false })
  | .kill p => some (s.setProcess p { s.processes p with killed := true })
  | .act t a =>
    if t ∈ L.threads then
      ((s.places t).act s.freezes (s.processes (L.process t)) a).map fun place =>
        { s with places := Function.update s.places t place }
    else none

end World

end LiberSystem.Freeze
