import LiberSystem.Kernel.Mem.Tlb
import LiberSystem.Lib.Runs

/-!
# Retiring frames

`retire`, `drain_quarantine` and the `Quarantine` of `mem/frame/mod.rs`, over the shootdown. Any
number of threads are in these calls.
-/

namespace LiberSystem.Shootdown

abbrev Frame := Nat
abbrev ThreadId := Nat

def QUARANTINE_DRAIN : Nat := 64
def QUARANTINE_CAPACITY : Nat := 512

/-- The arrays on the stack of `retire` and of `drain_quarantine`. -/
def UNQUEUED : Nat := 8
def DRAIN_BATCH : Nat := 64

/-- What follows a `drain_quarantine`: nothing, or the frame that the full queue refused, with the
frames after it and those that are to be dealt with at the end. -/
inductive After where
  | done
  | retry (frame : Frame) (rest unqueued : List Frame)

/-- What follows the end of some frames. -/
inductive Next where
  | done
  | fill (rest unqueued : List Frame)
  | drain
  | take (since : Nat) (after : After)

/-- What a shootdown is for: a retirement larger than the queue, one frame past the small batch,
the small batch, or the quarantine. -/
inductive Purpose where
  | large (frames : List Frame)
  | single (frame : Frame) (rest unqueued : List Frame)
  | batch (unqueued : List Frame) (full : Bool)
  | drain (after : After)

inductive Pc where
  | idle
  /-- Before the lock, with frames to be queued. -/
  | fill (rest unqueued : List Frame)
  | retry (frame : Frame) (rest unqueued : List Frame)
  | shoot (stage : Stage) (purpose : Purpose)
  /-- `deallocate` and `note_retired_pages`, frame by frame. -/
  | free (frames : List Frame) (next : Next)
  | record (frames : List Frame) (next : Next)
  /-- In `drain_quarantine`: before the first look at the queue, and before a batch is taken;
  `since` is the clock at which its shootdown began. -/
  | drain (after : After)
  | take (since : Nat) (after : After)

def After.pc : After → Pc
  | .done => .idle
  | .retry frame rest unqueued => .retry frame rest unqueued

def Next.pc : Next → Pc
  | .done => .idle
  | .fill rest unqueued => .fill rest unqueued
  | .drain => .drain .done
  | .take since after => .take since after

def Purpose.resume (complete : Bool) (since : Nat) : Purpose → Pc
  | .large frames => if complete then .free frames .done else .fill frames []
  | .single frame rest unqueued =>
    if complete then .free [frame] (.fill rest unqueued) else .record [frame] (.fill rest unqueued)
  | .batch unqueued full =>
    if complete then .free unqueued .drain else .record unqueued (if full then .drain else .done)
  | .drain after => if complete then .take since after else after.pc

structure Machine where
  cpus : Nat
  core : ThreadId → Core
  core_lt : ∀ t, core t < cpus

variable (M : Machine)

def Machine.enterShootdown (clock : Nat) (purpose : Purpose) : Pc :=
  if M.cpus ≤ 1 then purpose.resume true clock
  else if M.cpus > MAX_CPUS then purpose.resume false clock
  else .shoot .acquire purpose

def Machine.finish (clock : Nat) (unqueued : List Frame) (full : Bool) : Pc :=
  if unqueued.isEmpty then if full then .drain .done else .idle
  else M.enterShootdown clock (.batch unqueued full)

inductive Place where
  /-- With its owner, or with the allocator. -/
  | outside
  | call (t : ThreadId)
  | quarantine
  | retired
  deriving DecidableEq

structure World where
  tlb : Tlb
  quarantine : List Frame
  retired : List Frame
  pcs : ThreadId → Pc
  place : Frame → Place
  /-- When its last mapping was taken down, and by which core. -/
  unmapped : Frame → Nat
  unmapper : Frame → Core

inductive Event where
  /-- `retire` is called, with frames whose mappings the core has taken down. -/
  | retire (t : ThreadId) (frames : List Frame)
  | drain (t : ThreadId)
  /-- The thread goes on; `timeout` says that it gives up waiting. -/
  | go (t : ThreadId) (timeout : Bool)
  /-- The core flushes by itself, and `service_pending` runs on it. -/
  | flush (c : Core)
  | look (i : Nat) (c : Core)
  | serve (i : Nat)

namespace World

def new : World where
  tlb := .new
  quarantine := []
  retired := []
  pcs _ := .idle
  place _ := .outside
  unmapped _ := 0
  unmapper _ := 0

variable (s : World) (t : ThreadId)

def setPc (pc : Pc) : World :=
  { s with pcs := Function.update s.pcs t pc }

variable (frames : List Frame)

def move (place : Place) : World :=
  { s with place := fun f => if f ∈ frames then place else s.place f }

def unmap : World :=
  { s with
    tlb := { s.tlb with clock := s.tlb.clock + 1 }
    unmapped := fun f => if f ∈ frames then s.tlb.clock + 1 else s.unmapped f
    unmapper := fun f => if f ∈ frames then M.core t else s.unmapper f }

/-- The loop of `retire` while it holds the lock: it queues what there is room for. -/
def fill (rest unqueued : List Frame) : World :=
  let room := QUARANTINE_CAPACITY - s.quarantine.length
  let queue := s.quarantine ++ rest.take room
  { (s.move (rest.take room) .quarantine).setPc t
      (match rest.drop room with
      | [] => M.finish s.tlb.clock unqueued (decide (queue.length ≥ QUARANTINE_DRAIN))
      | frame :: rest => .drain (.retry frame rest unqueued)) with quarantine := queue }

def retry (frame : Frame) (rest unqueued : List Frame) : World :=
  if s.quarantine.length < QUARANTINE_CAPACITY then s.fill M t (frame :: rest) unqueued
  else if unqueued.length < UNQUEUED then s.fill M t rest (unqueued ++ [frame])
  else s.setPc t (M.enterShootdown s.tlb.clock (.single frame rest unqueued))

def batch : List Frame := s.quarantine.drop (s.quarantine.length - DRAIN_BATCH)

def take (s : World) (t : ThreadId) (since : Nat) (after : After) : World :=
  { (s.move s.batch (.call t)).setPc t
      (if s.batch.isEmpty then after.pc else .free s.batch (.take since after)) with
    quarantine := s.quarantine.take (s.quarantine.length - DRAIN_BATCH) }

def go (M : Machine) (s : World) (t : ThreadId) (timeout : Bool) : Pc → Option World
  | .idle => none
  | .fill rest unqueued => some (s.fill M t rest unqueued)
  | .retry frame rest unqueued => some (s.retry M t frame rest unqueued)
  | .shoot stage purpose =>
    (s.tlb.shoot M.cpus (M.core t) timeout stage).map fun r =>
      { s.setPc t (match r.2 with
        | .go stage => .shoot stage purpose
        | .returned complete generation => purpose.resume complete (r.1.began generation)) with
        tlb := r.1 }
  | .free [] next => some (s.setPc t next.pc)
  | .free (frame :: rest) next => some ((s.move [frame] .outside).setPc t (.free rest next))
  | .record [] next => some (s.setPc t next.pc)
  | .record (frame :: rest) next =>
    some { (s.move [frame] .retired).setPc t (.record rest next) with
      retired := frame :: s.retired }
  | .drain after =>
    some (s.setPc t (if s.quarantine.isEmpty then after.pc
      else M.enterShootdown s.tlb.clock (.drain after)))
  | .take since after => some (s.take t since after)

def retire : World :=
  ((s.unmap M t frames).move frames (.call t)).setPc t
    (if frames.isEmpty then .idle
    else if frames.length > QUARANTINE_CAPACITY then
      M.enterShootdown (s.tlb.clock + 1) (.large frames)
    else .fill frames [])

def idle (s : World) (t : ThreadId) : Bool :=
  match s.pcs t with
  | .idle => true
  | _ => false

def step : Event → Option World
  | .retire t frames =>
    if s.idle t = true ∧ frames.Nodup ∧ ∀ f ∈ frames, s.place f = .outside then
      some (s.retire M t frames)
    else none
  | .drain t => if s.idle t then some (s.setPc t (.drain .done)) else none
  | .go t timeout => s.go M t timeout (s.pcs t)
  | .flush c => some { s with tlb := s.tlb.flushLocal c }
  | .look i c => (s.tlb.look i c).map fun tlb => { s with tlb := tlb }
  | .serve i => (s.tlb.serve i).map fun tlb => { s with tlb := tlb }

end World

end LiberSystem.Shootdown
