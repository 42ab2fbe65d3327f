import LiberSystem.Kernel.Object.ChannelRun

/-!
# Threads and their process

How a thread comes into being, starts, exits and is dropped, by `object/thread/mod.rs`,
`object/process/mod.rs` and the scheduler. A critical section or an atomic access is one step.
-/

namespace LiberSystem.Threads

abbrev ProcessId := Nat
abbrev ThreadId := Nat

def VEC_MAX : Nat := (2 ^ 63 - 1) / 8

/-- What follows a `Drop` or a `mark_exited`. -/
inductive After where
  /-- `build_on` answers `None`. -/
  | undo
  | gone
  | exited
  deriving DecidableEq

/-- Where a thread is, from the call that creates it to the end of its object. -/
inductive Stage where
  | absent
  /-- Charged, before the allocation of the stack. -/
  | charged
  | stacked
  /-- `build_on` has answered `None`, and the charge is to be given back. -/
  | undo
  | built
  /-- In `build_on`, holding the guard: before the registration, and after it. -/
  | guarded
  | refused
  | registered
  | ready
  | started
  | exited
  /-- In `Drop`: before the refund, and before `thread_exited`. -/
  | dropping (after : After)
  | counting (after : After)
  /-- `thread_exited` has answered true: before `begin_teardown` publishes the flag, and while it
  waits for the guards. -/
  | finishing (after : After)
  | tearing (after : After)
  | gone
  deriving DecidableEq

def After.stage : After → Stage
  | .undo => .undo
  | .gone => .gone
  | .exited => .exited

structure Thread where
  process : ProcessId
  stage : Stage
  started : Bool

def Thread.goto (th : Thread) (stage : Stage) : Thread := { th with stage := stage }

structure Process where
  terminating : Bool
  /-- The guards that are held. -/
  extending : Nat
  threads : List ThreadId
  liveThreadCount : Nat
  /-- `terminate` has published the flag. -/
  killing : Bool
  killed : Bool
  exited : Bool
  /-- How often `thread_exited` has answered true. -/
  ends : Nat

def Process.new : Process := ⟨false,0,[],0,false,false,false,0⟩

variable (P : Process)

def Process.setCount (count ends : Nat) : Process :=
  { P with liveThreadCount := count, ends := ends }

def Process.threadExited : Bool × Process :=
  let last := P.liveThreadCount == 1
  (last, P.setCount (fetchSub P.liveThreadCount) (if last then P.ends + 1 else P.ends))

inductive Action where
  /-- `KernelStack::allocate_on` and the allocation of the object, which may fail. -/
  | allocate (ok : Bool)
  | object (ok : Bool)
  | undo
  | extend
  | register (room : Bool)
  | endExtend
  | start
  | exit
  | preempt
  | drop
  | refund
  | count
  | publish
  | finish

def Process.act (t : ThreadId) (th : Thread) (a : Action) : Option (Process × Thread × Bool) :=
  match th.stage, a with
  | .charged, .allocate ok => some (P, th.goto (if ok then .stacked else .undo), false)
  | .stacked, .object ok => some (P, th.goto (if ok then .built else .undo), false)
  | .undo, .undo => some (P, th.goto .gone, true)
  | .built, .extend =>
    if P.terminating then some (P, th.goto (.dropping .undo), false)
    else some ({ P with extending := P.extending + 1 }, th.goto .guarded, false)
  | .guarded, .register room =>
    if P.terminating = true ∨ room = false ∨ P.threads.length ≥ VEC_MAX then
      some (P, th.goto .refused, false)
    else
      some ({ P.setCount (fetchAdd P.liveThreadCount) P.ends with threads := P.threads ++ [t] },
        th.goto .registered, false)
  | .refused, .endExtend =>
    some ({ P with extending := P.extending - 1 }, th.goto (.dropping .undo), false)
  | .registered, .endExtend =>
    some ({ P with extending := P.extending - 1 }, th.goto .ready, false)
  | .ready, .start =>
    if P.terminating then some (P, th, false)
    else some (P, { th with stage := .started, started := true }, false)
  | .started, .exit =>
    let r := P.threadExited
    some (r.2, th.goto (if r.1 then .finishing .exited else .exited), false)
  | .started, .preempt =>
    if P.killed then
      let r := P.threadExited
      some (r.2, th.goto (if r.1 then .finishing .exited else .exited), false)
    else none
  | .ready, .drop => some (P, th.goto (.dropping .gone), false)
  | .exited, .drop => some (P, th.goto (.dropping .gone), false)
  | .dropping after, .refund =>
    some (P, th.goto (if th.started then after.stage else .counting after), true)
  | .counting after, .count =>
    let r := P.threadExited
    some (r.2, th.goto (if r.1 then .finishing after else after.stage), false)
  | .finishing after, .publish =>
    some ({ P with terminating := true }, th.goto (.tearing after), false)
  | .tearing after, .finish =>
    if P.extending = 0 then some ({ P with exited := true }, th.goto after.stage, false) else none
  | _, _ => none

structure Layout where
  forest : Forest
  domain : ProcessId → DomainId

def Layout.path (L : Layout) (p : ProcessId) : List DomainId := L.forest.path (L.domain p)

structure World where
  processes : ProcessId → Process
  threads : ThreadId → Thread
  created : List ThreadId
  accounts : Accounts

inductive Event where
  /-- `new`, `new_for_cpu` or, where the quota is enforced, `new_in`. -/
  | create (t : ThreadId) (p : ProcessId) (enforce : Bool)
  | act (t : ThreadId) (a : Action)
  /-- `terminate`, up to the publication of the flag, and after the wait for the guards. -/
  | terminate (p : ProcessId)
  | kill (p : ProcessId)

def Stage.paid : Stage → Bool
  | .absent | .gone | .counting .gone | .finishing .gone | .tearing .gone => false
  | _ => true

namespace World

def new (limits : DomainId → Resource → Nat) : World where
  processes _ := .new
  threads _ := ⟨0,.absent,false⟩
  created := []
  accounts d res := .new (limits d res)

variable (s : World)

def setProcess (p : ProcessId) (P : Process) : World :=
  { s with processes := Function.update s.processes p P }

def setThread (t : ThreadId) (th : Thread) : World :=
  { s with threads := Function.update s.threads t th }

def population : Nat := s.created.countP fun t => (s.threads t).stage.paid

def begin (t : ThreadId) (p : ProcessId) (accounts : Accounts) : World :=
  { s.setThread t ⟨p,.charged,false⟩ with created := s.created ++ [t], accounts := accounts }

/-- One step. A creation takes memory, for the kernel stack it runs on if for nothing else. -/
def step (L : Layout) (s : World) : Event → Option World
  | .create t p enforce =>
    if (s.threads t).stage = .absent ∧ s.population < heapWindow then
      if enforce then
        match Accounts.tryChargeHier .threads 1 (L.path p) s.accounts with
        | (true, accounts) => some (s.begin t p accounts)
        | (false, accounts) => some { s with accounts := accounts }
      else some (s.begin t p (Accounts.chargeHier .threads 1 (L.path p) s.accounts))
    else none
  | .act t a =>
    let p := (s.threads t).process
    ((s.processes p).act t (s.threads t) a).map fun (P, th, refund) =>
      { (s.setProcess p P).setThread t th with
        accounts := if refund then Accounts.unchargeHier .threads 1 (L.path p) s.accounts
          else s.accounts }
  | .terminate p =>
    some (s.setProcess p { s.processes p with terminating := true, killing := true })
  | .kill p =>
    if (s.processes p).killing = true ∧ (s.processes p).extending = 0 then
      some (s.setProcess p { s.processes p with killed := true })
    else none

end World

end LiberSystem.Threads
