import LiberSystem.Kernel.Object.Capability
import LiberSystem.Lib.Check
import LiberSystem.Lib.Runs

/-!
# Parking and waking threads

The scheduler of `sched/mod.rs` as a machine of atomic steps: a step is one atomic access or one
critical section of a lock. What threads do between two parks, and what the operations that end in a
wake do, are parameters (`Machine`).
-/

namespace LiberSystem.Sched

open Function List Option

abbrev ThreadId := Nat

abbrev CoreId := Nat

abbrev WakerId := Nat

def WAIT_BUCKET_COUNT : Nat := 64

def BATCH : Nat := 16

inductive ThreadState where
  | ready
  | running
  | blocked
  | exited
  deriving DecidableEq, Repr

/-! ### What a thread asks for -/

/-- A call of `block_on_flagged`, or of `block_on_any`. -/
structure Park (Ω : Type) where
  koids : List Koid
  /-- `none` is `NO_DEADLINE`. -/
  deadline : Option Nat
  /-- The re-check after the registration. -/
  ready : Check Ω
  any : Bool

/-- Where a thread is. `l` is where it goes on after the park. -/
inductive Pc (Ω L : Type) where
  | run (l : L)
  /-- At the reservations that come before anything is committed. -/
  | reserve (p : Park Ω) (l : L)
  /-- At the first store of `begin_park`, with interrupts masked. -/
  | arm (p : Park Ω) (l : L)
  | mark (p : Park Ω) (l : L)
  /-- At the registration for the first of the koids that are left. -/
  | register (p : Park Ω) (l : L) (rest : List Koid)
  /-- A registration failed: the entries are taken back, then the thread reclaims itself. -/
  | retract (p : Park Ω) (l : L) (rest : List Koid)
  | reprieve (p : Park Ω) (l : L)
  | timed (p : Park Ω) (l : L)
  | recheck (p : Park Ω) (l : L) (rest : Check Ω)
  | abort (p : Park Ω) (l : L)
  | reclaimed (p : Park Ω) (l : L)
  | switch (p : Park Ω) (l : L)
  | parked (p : Park Ω) (l : L)
  /-- Removing what the wait left in the buckets and in the timed list. -/
  | cleanup (p : Park Ω) (l : L) (rest : List Koid)

/-- Interrupts are on. In a park they are off from `begin_park` to its end. -/
def Pc.preemptible {Ω L : Type} : Pc Ω L → Bool
  | .run _ | .reserve _ _ => true
  | _ => false

/-! ### The state -/

structure Thread (Ω L : Type) where
  started : Bool
  state : ThreadState
  /-- `kstack_ptr` is not zero. -/
  saved : Bool
  cpuPlacement : Option CoreId
  pc : Pc Ω L

structure BucketWaiter where
  thread : ThreadId
  koid : Koid
  deriving DecidableEq

structure TimedWaiter where
  thread : ThreadId
  deadline : Nat
  deriving DecidableEq

structure Core where
  /-- The thread that the core runs, or `none` in its idle context. -/
  current : Option ThreadId
  /-- The thread that is switched away from, up to the store of its stack pointer. -/
  saving : Option ThreadId
  runQueue : List ThreadId

/-- What a waker still has to do. -/
inductive Wake where
  | object (koid : Koid)
  | collect (koid : Koid)
  | drain (koid : Koid)
  | thread (t : ThreadId)
  | deadlines (now : Nat)
  deriving DecidableEq

structure Waker where
  todo : List Wake
  /-- The threads it has claimed and not enqueued. -/
  batch : List ThreadId
  /-- It has seen the stack pointer of the first of them. -/
  seen : Bool
  /-- It has stored Ready there after that. -/
  stored : Bool

/-- Where the code outside of a park goes: on, or into a park. -/
inductive Next (Ω L : Type) where
  | goto (l : L)
  | block (p : Park Ω) (l : L)

/-- The code around the scheduler: the shared objects `Ω`, the program points `L` of a
thread outside of its parks, with what it may do there (`Ch` is what the step does not
decide), and the operations `Op` on the objects, each with the wakes it ends in. -/
structure Machine (Ω L Op Ch : Type) where
  move : ThreadId → L → Ch → Ω → Option (Next Ω L)
  perform : Op → Ω → Option (Ω × List Wake)
  /-- `OBSERVER_COUNT` is not zero. -/
  observed : Ω → Bool
  /-- The sets that `wake_object` collects. -/
  watchers : Ω → Koid → List Koid

structure State (Ω L : Type) where
  objects : Ω
  threads : ThreadId → Thread Ω L
  cores : CoreId → Core
  buckets : Nat → List BucketWaiter
  timed : List TimedWaiter
  wakers : WakerId → Waker

inductive Event (Op Ch : Type) where
  | start (c : CoreId) (t : ThreadId)
  | act (w : WakerId) (op : Op)
  | expire (w : WakerId) (now : Nat)
  | wake (w : WakerId)
  | spin (w : WakerId)
  | ready (w : WakerId)
  /-- `enqueue`, on the run queue of the waker's core unless the thread has a placement. -/
  | push (w : WakerId) (c : CoreId)
  | move (c : CoreId) (x : Ch)
  /-- The next step of a park. `room` is the answer of a reservation. -/
  | park (c : CoreId) (room : Bool)
  /-- A yield or a preemption. `idle`: the core's idle context is to run. -/
  | yield (c : CoreId) (idle : Bool)
  | exit (c : CoreId)
  | block (c : CoreId)
  | idle (c : CoreId)
  | save (c : CoreId)

/-! ### Claims -/

/-- The pass of a drain over a list of waiters: up to `n` of those that `hit` names and
whose thread is Blocked are claimed and leave the list. -/
def claimFrom {W Ω L : Type} (hit : W → Bool) (who : W → ThreadId) :
    Nat → List W → (ThreadId → Thread Ω L) →
      List ThreadId × List W × (ThreadId → Thread Ω L)
  | _, [], ths => ([], [], ths)
  | n, x :: rest, ths =>
    if 0 < n ∧ hit x = true ∧ (ths (who x)).state = .blocked then
      let r := claimFrom hit who (n - 1) rest
        (Function.update ths (who x) { ths (who x) with state := .ready })
      (who x :: r.1, r.2.1, r.2.2)
    else
      let r := claimFrom hit who n rest ths
      (r.1, x :: r.2.1, r.2.2)

section

variable {W Ω L : Type} (hit : W → Bool) (who : W → ThreadId)

section

variable (n : Nat) (ws : List W) (ths : ThreadId → Thread Ω L)
include n ws ths

theorem claimFrom_claims :
    let r := claimFrom hit who n ws ths
    r.1.Nodup ∧ (∀ t ∈ r.1, (ths t).state = .blocked) ∧
      ∀ t, r.2.2 t = if t ∈ r.1 then { ths t with state := .ready } else ths t := by
  induction ws generalizing n ths with
  | nil => simp [claimFrom]
  | cons x rest ih =>
    dsimp only [claimFrom]
    split
    · next hclaim =>
      obtain ⟨hnodup,hblocked,hths⟩ := ih (n - 1)
        (Function.update ths (who x) { ths (who x) with state := .ready })
      -- a claimed thread is Ready, so the rest of the pass passes it over
      have hnot : who x ∉ (claimFrom hit who (n - 1) rest
          (Function.update ths (who x) { ths (who x) with state := .ready })).1 := by
        intro hin
        simpa using hblocked _ hin
      refine ⟨nodup_cons.mpr ⟨hnot,hnodup⟩,?_,?_⟩
      · intro t ht
        rcases mem_cons.mp ht with rfl | ht
        · exact hclaim.2.2
        · have := hblocked t ht
          grind
      · intro t
        grind
    · exact ih n ths

theorem claimFrom_threads (t : ThreadId) : (claimFrom hit who n ws ths).2.2 t = ths t ∨
      ((claimFrom hit who n ws ths).2.2 t).state ≠ .blocked := by
  rw [(claimFrom_claims hit who n ws ths).2.2 t]
  split
  · exact .inr fun h => by cases h
  · exact .inl rfl

end

variable {ws : List W} {ths : ThreadId → Thread Ω L} {n : Nat} {x : W}

theorem mem_claimFrom
    (hx : x ∈ ws) (hblocked : ((claimFrom hit who n ws ths).2.2 (who x)).state = .blocked) :
    x ∈ (claimFrom hit who n ws ths).2.1 := by
  rw [(claimFrom_claims hit who n ws ths).2.2 (who x)] at hblocked
  have hnot : who x ∉ (claimFrom hit who n ws ths).1 := by
    intro hin
    rw [if_pos hin] at hblocked
    cases hblocked
  clear hblocked
  induction ws generalizing n ths with
  | nil => cases hx
  | cons y rest ih =>
    dsimp only [claimFrom] at hnot ⊢
    split at hnot <;> rcases mem_cons.mp hx with rfl | hx
    · exact absurd mem_cons_self hnot
    · next hclaim =>
      rw [if_pos hclaim]
      exact ih hx fun hin => hnot (mem_cons_of_mem _ hin)
    · next hclaim =>
      rw [if_neg hclaim]
      exact mem_cons_self
    · next hclaim =>
      rw [if_neg hclaim]
      exact mem_cons_of_mem _ (ih hx hnot)

theorem not_blocked_of_claimFrom
    (hn : 0 < n) (hnone : (claimFrom hit who n ws ths).1 = []) (hx : x ∈ ws)
    (hhit : hit x = true) : (ths (who x)).state ≠ .blocked := by
  induction ws with
  | nil => cases hx
  | cons y rest ih =>
    dsimp only [claimFrom] at hnone
    split at hnone
    · cases hnone
    next hskip =>
    rcases mem_cons.mp hx with rfl | hx
    · exact fun hblocked => hskip ⟨hn,hhit,hblocked⟩
    · exact ih hnone hx

end

namespace State

variable {Ω L Op Ch : Type} (s : State Ω L) (t : ThreadId)

def setThread (th : Thread Ω L) : State Ω L :=
  { s with threads := Function.update s.threads t th }

variable (c : CoreId)

def setCore (core : Core) : State Ω L :=
  { s with cores := Function.update s.cores c core }

def setWaker (w : WakerId) (waker : Waker) : State Ω L :=
  { s with wakers := Function.update s.wakers w waker }

def goto (pc : Pc Ω L) : State Ω L :=
  s.setThread t { s.threads t with pc := pc }

def setState (st : ThreadState) (pc : Pc Ω L) : State Ω L :=
  s.setThread t { s.threads t with state := st, pc := pc }

def bucketOf (k : Koid) : List BucketWaiter :=
  s.buckets (k % WAIT_BUCKET_COUNT)

def setBucket (k : Koid) (b : List BucketWaiter) : State Ω L :=
  { s with buckets := Function.update s.buckets (k % WAIT_BUCKET_COUNT) b }

/-- The thread that a core executes. Between the lock of `reschedule` and the store of
the stack pointer it executes none. -/
def running : Option ThreadId :=
  match (s.cores c).saving with
  | none => (s.cores c).current
  | some _ => none

def forget (k : Koid) : State Ω L :=
  s.setBucket k ((s.bucketOf k).filter fun e => e.thread ≠ t)

/-! ### The park -/

def parkStep (room : Bool) : Option (State Ω L) :=
  match (s.threads t).pc with
  | .run _ | .switch _ _ => none
  | .reserve p l => some (s.goto t (if room then .arm p l else .run l))
  | .arm p l => some (s.setThread t { s.threads t with saved := false, pc := .mark p l })
  | .mark p l => some (s.setState t .blocked (.register p l p.koids))
  | .register p l [] => some (s.goto t (.timed p l))
  | .register p l (k :: rest) =>
    if room then
      some ((s.setBucket k (s.bucketOf k ++ [⟨t,k⟩])).goto t (.register p l rest))
    else
      some (s.goto t (.retract p l (p.koids.take (p.koids.length - (rest.length + 1)))))
  | .retract p l (k :: rest) => some ((s.forget t k).goto t (.retract p l rest))
  | .retract p l [] =>
    if (s.threads t).state = .blocked then some (s.setState t .ready (.reprieve p l))
    else if p.any then some (s.goto t (.timed p l))
    else some (s.goto t (.run l))
  | .reprieve _ l => some (s.setState t .running (.run l))
  | .timed p l =>
    match p.deadline with
    | some d =>
      let timed := if room then s.timed ++ [⟨t,d⟩] else s.timed
      some ({ s with timed := timed }.goto t (.recheck p l p.ready))
    | none => some (s.goto t (.recheck p l p.ready))
  | .recheck p l (.read free next) =>
    if free s.objects then some (s.goto t (.recheck p l (next s.objects))) else none
  | .recheck p l (.done true) => some (s.goto t (.abort p l))
  | .recheck p l (.done false) => some (s.goto t (.switch p l))
  | .abort p l =>
    if (s.threads t).state = .blocked then some (s.setState t .ready (.reclaimed p l))
    else some (s.goto t (.switch p l))
  | .reclaimed p l => some (s.setState t .running (.cleanup p l p.koids))
  | .parked p l => some (s.goto t (.cleanup p l p.koids))
  | .cleanup p l (k :: rest) => some ((s.forget t k).goto t (.cleanup p l rest))
  | .cleanup p l [] =>
    match p.deadline with
    | some _ =>
      some ({ s with timed := s.timed.filter fun e => e.thread ≠ t }.goto t (.run l))
    | none => some (s.goto t (.run l))

/-- The steps of a park, one by one. -/
inductive ParkStep (s : State Ω L) (t : ThreadId) : Bool → State Ω L → Prop where
  | reserve {p l room} : (s.threads t).pc = .reserve p l →
      ParkStep s t room (s.goto t (if room then .arm p l else .run l))
  | arm {p l room} : (s.threads t).pc = .arm p l →
      ParkStep s t room (s.setThread t { s.threads t with saved := false, pc := .mark p l })
  | mark {p l room} : (s.threads t).pc = .mark p l →
      ParkStep s t room (s.setState t .blocked (.register p l p.koids))
  | registered {p l room} : (s.threads t).pc = .register p l [] →
      ParkStep s t room (s.goto t (.timed p l))
  | register {p l k rest} :
      (s.threads t).pc = .register p l (k :: rest) →
      ParkStep s t true
        ((s.setBucket k (s.bucketOf k ++ [⟨t,k⟩])).goto t (.register p l rest))
  | refuse {p l k rest} :
      (s.threads t).pc = .register p l (k :: rest) →
      ParkStep s t false
        (s.goto t (.retract p l (p.koids.take (p.koids.length - (rest.length + 1)))))
  | retract {p l room k rest} :
      (s.threads t).pc = .retract p l (k :: rest) →
      ParkStep s t room ((s.forget t k).goto t (.retract p l rest))
  | reprieve {p l room} : (s.threads t).pc = .retract p l [] →
      (s.threads t).state = .blocked → ParkStep s t room (s.setState t .ready (.reprieve p l))
  | claimedAny {p l room} : (s.threads t).pc = .retract p l [] →
      (s.threads t).state ≠ .blocked → p.any = true →
      ParkStep s t room (s.goto t (.timed p l))
  | claimedFlagged {p l room} : (s.threads t).pc = .retract p l [] →
      (s.threads t).state ≠ .blocked → p.any = false → ParkStep s t room (s.goto t (.run l))
  | reprieved {p l room} : (s.threads t).pc = .reprieve p l →
      ParkStep s t room (s.setState t .running (.run l))
  | timed {p l room} (ws : List TimedWaiter) :
      (s.threads t).pc = .timed p l →
      ParkStep s t room ({ s with timed := ws }.goto t (.recheck p l p.ready))
  | read {p l room free next} :
      (s.threads t).pc = .recheck p l (.read free next) → free s.objects = true →
      ParkStep s t room (s.goto t (.recheck p l (next s.objects)))
  | yes {p l room} : (s.threads t).pc = .recheck p l (.done true) →
      ParkStep s t room (s.goto t (.abort p l))
  | no {p l room} : (s.threads t).pc = .recheck p l (.done false) →
      ParkStep s t room (s.goto t (.switch p l))
  | abort {p l room} : (s.threads t).pc = .abort p l →
      (s.threads t).state = .blocked → ParkStep s t room (s.setState t .ready (.reclaimed p l))
  | tooLate {p l room} : (s.threads t).pc = .abort p l →
      (s.threads t).state ≠ .blocked → ParkStep s t room (s.goto t (.switch p l))
  | reclaimed {p l room} : (s.threads t).pc = .reclaimed p l →
      ParkStep s t room (s.setState t .running (.cleanup p l p.koids))
  | resume {p l room} : (s.threads t).pc = .parked p l →
      ParkStep s t room (s.goto t (.cleanup p l p.koids))
  | cleanup {p l room k rest} :
      (s.threads t).pc = .cleanup p l (k :: rest) →
      ParkStep s t room ((s.forget t k).goto t (.cleanup p l rest))
  | cleaned {p l room} (ws : List TimedWaiter) :
      (s.threads t).pc = .cleanup p l [] →
      ParkStep s t room ({ s with timed := ws }.goto t (.run l))

theorem parkStep_cases {s s' : State Ω L} {t : ThreadId} {room : Bool}
    (h : s.parkStep t room = some s') : ParkStep s t room s' := by
  unfold parkStep at h
  split at h
  · cases h
  · cases h
  · next hpc => cases h; exact .reserve hpc
  · next hpc => cases h; exact .arm hpc
  · next hpc => cases h; exact .mark hpc
  · next hpc => cases h; exact .registered hpc
  · next hpc =>
    split at h
    · next hroom => cases h; subst hroom; exact .register hpc
    next hroom =>
    cases h
    rw [Bool.not_eq_true] at hroom
    subst hroom
    exact .refuse hpc
  · next hpc => cases h; exact .retract hpc
  · next hpc =>
    split at h
    · next hblocked => cases h; exact .reprieve hpc hblocked
    next hblocked =>
    split at h
    · next hany => cases h; exact .claimedAny hpc hblocked hany
    · next hany => cases h; exact .claimedFlagged hpc hblocked (Bool.not_eq_true _ ▸ hany)
  · next hpc => cases h; exact .reprieved hpc
  · next hpc =>
    split at h
    · cases h; exact .timed _ hpc
    · cases h; exact .timed s.timed hpc
  · next hpc =>
    split at h
    · next hfree => cases h; exact .read hpc hfree
    · cases h
  · next hpc => cases h; exact .yes hpc
  · next hpc => cases h; exact .no hpc
  · next hpc =>
    split at h
    · next hblocked => cases h; exact .abort hpc hblocked
    · next hblocked => cases h; exact .tooLate hpc hblocked
  · next hpc => cases h; exact .reclaimed hpc
  · next hpc => cases h; exact .resume hpc
  · next hpc => cases h; exact .cleanup hpc
  · next hpc =>
    split at h
    · cases h; exact .cleaned _ hpc
    · cases h; exact .cleaned s.timed hpc

/-! ### The scheduler -/

def enqueueOn (t : ThreadId) : State Ω L :=
  let c := (s.threads t).cpuPlacement.getD c
  s.setCore c { s.cores c with runQueue := (s.cores c).runQueue ++ [t] }

def dispatch : State Ω L :=
  match (s.cores c).runQueue with
  | [] => s
  | t :: rest =>
    (s.setThread t { s.threads t with state := .running }).setCore c
      { s.cores c with current := some t, runQueue := rest }

def leave (t : ThreadId) (queue : List ThreadId) : State Ω L :=
  s.setCore c { current := none, saving := some t, runQueue := queue }

def requeue (t : ThreadId) (idle : Bool) : State Ω L :=
  let away := (s.setThread t { s.threads t with state := .ready }).leave c t
    ((s.cores c).runQueue ++ [t])
  if idle then away
  else if (s.cores c).runQueue = [] then s.setThread t { s.threads t with state := .running }
  else away.dispatch c

def retire (t : ThreadId) : State Ω L :=
  ((s.setThread t { s.threads t with state := .exited }).leave c t (s.cores c).runQueue).dispatch c

def blockCurrent (t : ThreadId) (p : Park Ω) (l : L) : State Ω L :=
  ((s.goto t (.parked p l)).leave c t (s.cores c).runQueue).dispatch c

/-! ### What an update changes -/

section

variable (s : State Ω L) (t : ThreadId) (c : CoreId) (w : WakerId) (k : Koid)

section

variable (th : Thread Ω L)

@[simp,grind =] theorem setThread_objects : (s.setThread t th).objects = s.objects := rfl

@[simp,grind =] theorem setThread_threads (i : ThreadId) :
    (s.setThread t th).threads i = if i = t then th else s.threads i :=
  update_apply ..

@[simp,grind =] theorem setThread_cores (i : CoreId) : (s.setThread t th).cores i = s.cores i := rfl

@[simp,grind =] theorem setThread_buckets (i : Nat) :
    (s.setThread t th).buckets i = s.buckets i := rfl

@[simp,grind =] theorem setThread_wakers (i : WakerId) :
    (s.setThread t th).wakers i = s.wakers i := rfl

end

variable (core : Core)

@[simp,grind =] theorem setCore_threads (i : ThreadId) :
    (s.setCore c core).threads i = s.threads i := rfl

@[simp,grind =] theorem setCore_cores (i : CoreId) :
    (s.setCore c core).cores i = if i = c then core else s.cores i :=
  update_apply ..

@[simp,grind =] theorem setCore_wakers (i : WakerId) :
    (s.setCore c core).wakers i = s.wakers i := rfl

section

variable (waker : Waker)
include waker

@[simp,grind =] theorem setWaker_threads (i : ThreadId) :
    (s.setWaker w waker).threads i = s.threads i := rfl

@[simp,grind =] theorem setWaker_cores (i : CoreId) :
    (s.setWaker w waker).cores i = s.cores i := rfl

@[simp,grind =] theorem setWaker_buckets (i : Nat) :
    (s.setWaker w waker).buckets i = s.buckets i := rfl

@[simp,grind =] theorem setWaker_wakers (i : WakerId) :
    (s.setWaker w waker).wakers i = if i = w then waker else s.wakers i :=
  update_apply ..

end

@[simp,grind =] theorem setBucket_threads (b : List BucketWaiter) (i : ThreadId) :
    (s.setBucket k b).threads i = s.threads i := rfl

@[simp,grind =] theorem setBucket_buckets (b : List BucketWaiter) (i : Nat) :
    (s.setBucket k b).buckets i = if i = k % WAIT_BUCKET_COUNT then b else s.buckets i :=
  update_apply ..

variable (q : List ThreadId)
include q

@[simp,grind =] theorem leave_threads (i : ThreadId) :
    (s.leave c t q).threads i = s.threads i := rfl

@[simp,grind =] theorem leave_cores (i : CoreId) :
    (s.leave c t q).cores i = if i = c then ⟨none,some t,q⟩ else s.cores i :=
  update_apply ..

@[simp,grind =] theorem leave_wakers (i : WakerId) : (s.leave c t q).wakers i = s.wakers i := rfl

end

/-! ### The wakers -/

def wakeStep (M : Machine Ω L Op Ch) (s : State Ω L) (w : WakerId) :
    Wake → List Wake → State Ω L
  | .object k, rest =>
    s.setWaker w ⟨(if M.observed s.objects then .collect k else .drain k) :: rest,[],false,false⟩
  | .collect k, rest =>
    s.setWaker w
      ⟨.drain k :: ((M.watchers s.objects k).map Wake.drain ++ rest),[],false,false⟩
  | .drain k, rest =>
    match claimFrom (fun e => e.koid == k) BucketWaiter.thread BATCH (s.bucketOf k) s.threads with
    | ([], _, _) => s.setWaker w ⟨rest,[],false,false⟩
    | (t :: ts, bucket, threads) =>
      ({ s with threads := threads }.setBucket k bucket).setWaker w
        ⟨.drain k :: rest,t :: ts,false,false⟩
  | .thread t, rest =>
    if (s.threads t).state = .blocked then
      (s.setThread t { s.threads t with state := .ready }).setWaker w ⟨rest,[t],false,false⟩
    else s.setWaker w ⟨rest,[],false,false⟩
  | .deadlines now, rest =>
    match claimFrom (fun e => e.deadline ≤ now) TimedWaiter.thread BATCH s.timed s.threads with
    | ([], _, _) => s.setWaker w ⟨rest,[],false,false⟩
    | (t :: ts, timed, threads) =>
      { s with threads := threads, timed := timed }.setWaker w
        ⟨.deadlines now :: rest,t :: ts,false,false⟩

/-- The waker `w` has claimed the threads `ts`, all of them Blocked, and nothing else has
changed but the lists of waiters. -/
structure Claims (s : State Ω L) (w : WakerId) (ts : List ThreadId) (todo : List Wake)
    (s' : State Ω L) : Prop where
  nodup : ts.Nodup
  blocked : ∀ t ∈ ts, (s.threads t).state = .blocked
  objects : s'.objects = s.objects
  cores : s'.cores = s.cores
  threads : ∀ t, s'.threads t =
    if t ∈ ts then { s.threads t with state := .ready } else s.threads t
  wakers : ∀ w', s'.wakers w' = if w' = w then ⟨todo,ts,false,false⟩ else s.wakers w'

theorem wakeStep_claims (M : Machine Ω L Op Ch) (s : State Ω L) (w : WakerId) (task : Wake)
    (rest : List Wake) : ∃ ts todo, s.Claims w ts todo (s.wakeStep M w task rest) := by
  have hnone todo : ∃ ts todo', s.Claims w ts todo' (s.setWaker w ⟨todo,[],false,false⟩) :=
    ⟨[],todo,.nil,(fun t ht => by cases ht),rfl,rfl,fun t => rfl,setWaker_wakers s w _⟩
  cases task with
  | object k | collect k => exact hnone _
  | drain k =>
    have hclaims := claimFrom_claims (fun e : BucketWaiter => e.koid == k) BucketWaiter.thread
      BATCH (s.bucketOf k) s.threads
    dsimp only [wakeStep]
    split
    · exact hnone _
    · next heq =>
      rw [heq] at hclaims
      exact ⟨_,_,hclaims.1,hclaims.2.1,rfl,rfl,hclaims.2.2,setWaker_wakers _ w _⟩
  | thread t =>
    dsimp only [wakeStep]
    split
    · next hblocked =>
      refine ⟨[t],rest,by simp,by simpa using hblocked,rfl,rfl,fun t' => ?_,setWaker_wakers _ w _⟩
      by_cases ht : t' = t
      · subst ht
        simp
      · simp [ht]
    · exact hnone _
  | deadlines now =>
    have hclaims := claimFrom_claims (fun e : TimedWaiter => decide (e.deadline ≤ now))
      TimedWaiter.thread BATCH s.timed s.threads
    dsimp only [wakeStep]
    split
    · exact hnone _
    · next heq =>
      rw [heq] at hclaims
      exact ⟨_,_,hclaims.1,hclaims.2.1,rfl,rfl,hclaims.2.2,setWaker_wakers _ w _⟩

end State

open State

variable {Ω L Op Ch : Type}

def step (M : Machine Ω L Op Ch) (s : State Ω L) : Event Op Ch → Option (State Ω L)
  | .start c t =>
    if (s.threads t).started = false then
      some ((s.setThread t { s.threads t with started := true, state := .ready }).enqueueOn c t)
    else none
  | .act w op =>
    if (s.wakers w).todo = [] ∧ (s.wakers w).batch = [] then
      (M.perform op s.objects).map fun r =>
        { s with objects := r.1 }.setWaker w ⟨r.2,[],false,false⟩
    else none
  | .expire w now =>
    if (s.wakers w).todo = [] ∧ (s.wakers w).batch = [] then
      some (s.setWaker w ⟨[.deadlines now],[],false,false⟩)
    else none
  | .wake w =>
    match (s.wakers w).todo, (s.wakers w).batch with
    | task :: rest, [] => some (s.wakeStep M w task rest)
    | _, _ => none
  | .spin w =>
    match (s.wakers w).batch with
    | t :: _ =>
      if (s.wakers w).seen = false ∧ (s.threads t).saved = true then
        some (s.setWaker w { s.wakers w with seen := true })
      else none
    | [] => none
  | .ready w =>
    match (s.wakers w).batch with
    | t :: _ =>
      if (s.wakers w).seen = true ∧ (s.wakers w).stored = false then
        some ((s.setThread t { s.threads t with state := .ready }).setWaker w
          { s.wakers w with stored := true })
      else none
    | [] => none
  | .push w c =>
    match (s.wakers w).batch with
    | t :: ts =>
      if (s.wakers w).seen = true ∧ (s.wakers w).stored = true then
        some ((s.enqueueOn c t).setWaker w ⟨(s.wakers w).todo,ts,false,false⟩)
      else none
    | [] => none
  | .move c x =>
    (s.running c).bind fun t =>
      match (s.threads t).pc with
      | .run l =>
        (M.move t l x s.objects).map fun
          | .goto l' => s.goto t (.run l')
          | .block p l' => s.goto t (.reserve p l')
      | _ => none
  | .park c room => (s.running c).bind fun t => s.parkStep t room
  | .yield c idle =>
    (s.running c).bind fun t =>
      if (s.threads t).pc.preemptible then some (s.requeue c t idle) else none
  | .exit c =>
    (s.running c).bind fun t =>
      match (s.threads t).pc with
      | .run _ => some (s.retire c t)
      | _ => none
  | .block c =>
    (s.running c).bind fun t =>
      match (s.threads t).pc with
      | .switch p l => some (s.blockCurrent c t p l)
      | _ => none
  | .idle c =>
    match (s.cores c).saving, (s.cores c).current with
    | none, none => some (s.dispatch c)
    | _, _ => none
  | .save c =>
    match (s.cores c).saving with
    | some t =>
      some ((s.setThread t { s.threads t with saved := true }).setCore c
        { s.cores c with saving := none })
    | none => none

/-- The steps of the system, one by one. -/
inductive Step (M : Machine Ω L Op Ch) (s : State Ω L) : Event Op Ch → State Ω L → Prop where
  | start {c t} : (s.threads t).started = false → Step M s (.start c t)
      ((s.setThread t { s.threads t with started := true, state := .ready }).enqueueOn c t)
  | act {w op ω' wakes} : (s.wakers w).todo = [] → (s.wakers w).batch = [] →
      M.perform op s.objects = some (ω', wakes) →
      Step M s (.act w op) ({ s with objects := ω' }.setWaker w ⟨wakes,[],false,false⟩)
  | expire {w now} : (s.wakers w).todo = [] → (s.wakers w).batch = [] →
      Step M s (.expire w now) (s.setWaker w ⟨[.deadlines now],[],false,false⟩)
  | wake {w task rest} : (s.wakers w).todo = task :: rest → (s.wakers w).batch = [] →
      Step M s (.wake w) (s.wakeStep M w task rest)
  | spin {w t ts} : (s.wakers w).batch = t :: ts → (s.threads t).saved = true →
      Step M s (.spin w) (s.setWaker w { s.wakers w with seen := true })
  | ready {w t ts} : (s.wakers w).batch = t :: ts → (s.wakers w).seen = true →
      Step M s (.ready w) ((s.setThread t { s.threads t with state := .ready }).setWaker w
        { s.wakers w with stored := true })
  | push {w c t ts} : (s.wakers w).batch = t :: ts → (s.wakers w).seen = true →
      Step M s (.push w c) ((s.enqueueOn c t).setWaker w ⟨(s.wakers w).todo,ts,false,false⟩)
  | goto {c x t l l'} : s.running c = some t → (s.threads t).pc = .run l →
      M.move t l x s.objects = some (.goto l') → Step M s (.move c x) (s.goto t (.run l'))
  | enter {c x t l p l'} : s.running c = some t → (s.threads t).pc = .run l →
      M.move t l x s.objects = some (.block p l') →
      Step M s (.move c x) (s.goto t (.reserve p l'))
  | park {c room t s'} : s.running c = some t → ParkStep s t room s' → Step M s (.park c room) s'
  | yield {c idle t} : s.running c = some t → (s.threads t).pc.preemptible = true →
      Step M s (.yield c idle) (s.requeue c t idle)
  | exit {c t l} : s.running c = some t → (s.threads t).pc = .run l →
      Step M s (.exit c) (s.retire c t)
  | block {c t p l} : s.running c = some t → (s.threads t).pc = .switch p l →
      Step M s (.block c) (s.blockCurrent c t p l)
  | idle {c} : (s.cores c).saving = none → (s.cores c).current = none →
      Step M s (.idle c) (s.dispatch c)
  | save {c t} : (s.cores c).saving = some t →
      Step M s (.save c) ((s.setThread t { s.threads t with saved := true }).setCore c
        { s.cores c with saving := none })

theorem step_cases {M : Machine Ω L Op Ch} {s s' : State Ω L} {e : Event Op Ch}
    (h : step M s e = some s') : Step M s e s' := by
  cases e with
  | move c x =>
    obtain ⟨t,hrun,h⟩ := bind_eq_some_iff.mp h
    split at h
    · next hpc =>
      obtain ⟨next,hmove,rfl⟩ := map_eq_some_iff.mp h
      cases next with
      | goto l' => exact .goto hrun hpc hmove
      | block p l' => exact .enter hrun hpc hmove
    · cases h
  | park c room =>
    obtain ⟨t,hrun,h⟩ := bind_eq_some_iff.mp h
    exact .park hrun (parkStep_cases h)
  | yield c _ | exit c | block c =>
    obtain ⟨t,hrun,h⟩ := bind_eq_some_iff.mp h
    split at h <;> cases h
    constructor <;> assumption
  | act w op =>
    dsimp only [step] at h
    split at h
    · next hidle =>
      obtain ⟨r,hop,rfl⟩ := map_eq_some_iff.mp h
      exact .act hidle.1 hidle.2 hop
    · cases h
  | expire w now =>
    dsimp only [step] at h
    split at h
    · next hidle =>
      cases h
      exact .expire hidle.1 hidle.2
    · cases h
  | start c _ | wake c | idle c | save c =>
    dsimp only [step] at h
    split at h <;> cases h
    constructor <;> assumption
  | spin w | ready w | push w _ =>
    dsimp only [step] at h
    split at h
    · split at h
      · next hseen =>
        cases h
        obtain ⟨hfirst,hsecond⟩ := hseen
        constructor <;> assumption
      · cases h
    · cases h

/-- Nothing has been started: no core runs a thread, and nothing waits. -/
structure Start (s : State Ω L) : Prop where
  thread : ∀ t, (s.threads t).started = false ∧ (s.threads t).state = .ready ∧
    (s.threads t).saved = true ∧ ∃ l, (s.threads t).pc = .run l
  core : ∀ c, s.cores c = ⟨none,none,[]⟩
  bucket : ∀ n, s.buckets n = []
  timed : s.timed = []
  waker : ∀ w, s.wakers w = ⟨[],[],false,false⟩

end LiberSystem.Sched
