import Mathlib.Logic.Function.Basic
import LiberSystem.Lib.Runs

/-!
# Memory that is plugged in

The table of regions of `mem/hotplug/mod.rs`. A step is one section under the lock of the table, or
one page mapped or unmapped under the lock of the page tables. All address spaces share the direct
map.
-/

namespace LiberSystem.Hotplug

def MAX_REGIONS : Nat := 4
def MAX_ADDRESS : Nat := 2 ^ 39
def MAX_BLOCKS : Nat := 32768
def PAGE : Nat := 4096

inductive Arch where
  | x86_64
  | aarch64
  | riscv64
  deriving DecidableEq

inductive Refusal where
  | unaligned
  | overlap
  | tooHigh
  | tooMany
  | range
  | state
  | busy
  | mapping
  | noMemory
  | unsupported
  deriving DecidableEq

def isPowerOfTwo (n : Nat) : Bool := n == 2 ^ n.log2

def check (base size block : Nat) (taken : List (Nat × Nat)) : Except Refusal Unit :=
  if block < PAGE || !isPowerOfTwo block || size == 0 || base % block != 0 || size % block != 0 then
    .error .unaligned
  else if size / block > MAX_BLOCKS then .error .tooMany
  else if base + size ≥ 2 ^ 64 then .error .tooHigh
  else if base + size > MAX_ADDRESS then .error .tooHigh
  else if taken.any fun r => base < min (r.1 + r.2) (2 ^ 64 - 1) && r.1 < base + size then
    .error .overlap
  else .ok ()

structure Region where
  base : Nat
  pages : Nat
  blockPages : Nat
  online : List Bool
  free : List (BitVec 64)
  freePages : Nat
  onlinePages : Nat
  /-- Where the next search for a free frame starts. -/
  cursor : Nat
  deriving DecidableEq

namespace Region

variable (r : Region)

def contains (phys : Nat) : Bool :=
  r.base ≤ phys && phys < r.base + r.pages * PAGE

def bit (frame : Nat) : Bool :=
  r.free.getD (frame / 64) 0 &&& 1#64 <<< (frame % 64) != 0

def set (r : Region) (frame : Nat) (free : Bool) : Region :=
  let word := r.free.getD (frame / 64) 0
  { r with
    free := r.free.set (frame / 64)
      (if free then word ||| 1#64 <<< (frame % 64) else word &&& ~~~(1#64 <<< (frame % 64))) }

def blockOf (frame : Nat) : Nat := frame / r.blockPages

def setAll (frames : List Nat) (free : Bool) : Region :=
  frames.foldl (fun r frame => r.set frame free) r

def mark (first count : Nat) (on : Bool) : Region :=
  { r with online := r.online.mapIdx fun i b => if first ≤ i ∧ i < first + count then on else b }

def new (base size block : Nat) : Region where
  base := base
  pages := size / PAGE
  blockPages := block / PAGE
  online := List.replicate (size / block) false
  free := List.replicate ((size / PAGE + 63) / 64) 0
  freePages := 0
  onlinePages := 0
  cursor := 0

def bringOnline (base pages first count : Nat) : Region :=
  { (r.setAll (List.range' ((base - r.base) / PAGE) pages) true).mark first count true with
    freePages := r.freePages + pages
    onlinePages := r.onlinePages + pages }

def takeOffline (base pages first count : Nat) : Except Refusal Region :=
  let frames := List.range' ((base - r.base) / PAGE) pages
  if ((r.online.drop first).take count).any fun online => !online then .error .state
  else if frames.any fun frame => !r.bit frame then .error .busy
  else .ok
    { (r.setAll frames false).mark first count false with
      freePages := r.freePages - pages
      onlinePages := r.onlinePages - pages }

/-- The search of `take` in one region: the address of a free frame, and the region without it. -/
def take : Option (Nat × Region) :=
  if r.freePages = 0 then none
  else
    match (List.range r.pages).find? fun step => r.bit ((r.cursor + step) % r.pages) with
    | none => none
    | some step =>
      let frame := (r.cursor + step) % r.pages
      some (r.base + frame * PAGE,
        { r.set frame false with freePages := r.freePages - 1, cursor := frame + 1 })

/-- What `give` does in the region that has the address: a frame of an offline block, or one that is
free already, is refused. -/
def give (phys : Nat) : Region :=
  let frame := (phys - r.base) / PAGE
  if !r.online.getD (r.blockOf frame) false || r.bit frame then r
  else { r.set frame true with freePages := r.freePages + 1 }

end Region

abbrev Table := List (Option Region)

namespace Table

variable (regions : Table)

def region (index : Nat) : Option Region := regions.getD index none

def registered (base size block : Nat) : Option Nat :=
  regions.findIdx? fun slot => slot.any fun r =>
    r.base == base && r.pages * PAGE == size && r.blockPages * PAGE == block

/-- The ranges that the slots hold, with an empty one for an empty slot. -/
def held : List (Nat × Nat) :=
  regions.map fun slot => slot.elim (0, 0) fun r => (r.base, r.pages * PAGE)

def place (base size : Nat) (region : Region) : Except Refusal (Nat × Table) :=
  if regions.any fun slot => slot.any fun other =>
      base < other.base + other.pages * PAGE && other.base < base + size then .error .overlap
  else
    match regions.findIdx? Option.isNone with
    | none => .error .tooMany
    | some index => .ok (index, regions.set index (some region))

def span (index first count : Nat) : Except Refusal (Nat × Nat) :=
  match regions.region index with
  | none => .error .range
  | some r =>
    if count = 0 ∨ first + count > r.online.length then .error .range
    else .ok (r.base + first * r.blockPages * PAGE, count * r.blockPages)

def anyOnline (index first count : Nat) : Bool :=
  (regions.region index).any fun r => ((r.online.drop first).take count).any id

def take : Table → Option (Nat × Table)
  | [] => none
  | slot :: rest =>
    match slot.bind Region.take with
    | some (phys, r) => some (phys, some r :: rest)
    | none => (take rest).map fun (phys, rest) => (phys, slot :: rest)

def give (regions : Table) (phys : Nat) : Option Table :=
  match regions with
  | [] => none
  | none :: rest => (give rest phys).map (none :: ·)
  | some r :: rest =>
    if r.contains phys then some (some (r.give phys) :: rest)
    else (give rest phys).map (some r :: ·)

end Table

abbrev Caller := Nat

inductive Answer where
  | nothing
  | refused (why : Refusal)
  | registered (index : Nat)
  | changed
  | took (frame : Option Nat)
  | gave (ours : Bool)
  deriving DecidableEq

inductive Call where
  | idle (last : Answer)
  /-- In `register`, with the region made and the lock not taken again. -/
  | place (base size : Nat) (region : Region)
  /-- In `online`: before the blocks are looked at, and in `map` with `done` pages mapped. -/
  | look (index first count base pages : Nat)
  | map (index first count base pages done : Nat)
  /-- In `offline`, before the second section. -/
  | offline (index first count base pages : Nat)
  /-- In `unmap` with `done` pages unmapped, and what the call answers after it. -/
  | unmap (base pages done : Nat) (answer : Answer)
  deriving DecidableEq

structure World where
  regions : Table
  /-- The pages of the direct map, by physical address. -/
  mapped : Nat → Bool
  calls : Caller → Call

inductive Event where
  /-- `register` up to the region it makes; `room` says that the bitmaps could be allocated. -/
  | register (c : Caller) (base size block : Nat) (taken : List (Nat × Nat)) (room : Bool)
  | online (c : Caller) (index first count : Nat)
  | offline (c : Caller) (index first count : Nat)
  | take (c : Caller)
  | give (c : Caller) (phys : Nat)
  /-- The caller goes on; `room` says that the page tables on the way to a page are there or can be
  allocated. -/
  | go (c : Caller) (room : Bool)

namespace World

def start (mapped : Nat → Bool) : World where
  regions := List.replicate MAX_REGIONS none
  mapped := mapped
  calls _ := .idle .nothing

variable (s : World)

def setCall (c : Caller) (call : Call) : World :=
  { s with calls := Function.update s.calls c call }

def setRegions (regions : Table) : World := { s with regions := regions }

def setRegion (index : Nat) (r : Region) : World :=
  s.setRegions (s.regions.set index (some r))

def setMapped (page : Nat) (b : Bool) : World :=
  { s with mapped := Function.update s.mapped page b }

variable (arch : Arch)

/-- The first section of `register`, its checks and its allocations. -/
def register (regions : Table) (base size block : Nat) (taken : List (Nat × Nat))
    (room : Bool) : Call :=
  if arch ≠ .x86_64 then .idle (.refused .unsupported)
  else
    match regions.registered base size block with
    | some index => .idle (.registered index)
    | none =>
      match check base size block taken, check base size block regions.held with
      | .error why, _ => .idle (.refused why)
      | .ok (), .error why => .idle (.refused why)
      | .ok (), .ok () =>
        if room then .place base size (.new base size block) else .idle (.refused .noMemory)

def advance (s : World) (c : Caller) (room : Bool) : Call → Option World
  | .idle _ => none
  | .place base size region =>
    match s.regions.place base size region with
    | .error why => some (s.setCall c (.idle (.refused why)))
    | .ok (index, regions) => some ((s.setRegions regions).setCall c (.idle (.registered index)))
  | .look index first count base pages =>
    if s.regions.anyOnline index first count then some (s.setCall c (.idle (.refused .state)))
    else some (s.setCall c (.map index first count base pages 0))
  | .map index first count base pages done =>
    if arch ≠ .x86_64 then some (s.setCall c (.idle (.refused .unsupported)))
    else if done < pages then
      -- A page that is present already is refused, as is one with no page table.
      if s.mapped (base + done * PAGE) || !room then
        some (s.setCall c (.unmap base done 0 (.refused .mapping)))
      else
        some ((s.setMapped (base + done * PAGE) true).setCall c
          (.map index first count base pages (done + 1)))
    else
      match s.regions.region index with
      | none => some (s.setCall c (.idle (.refused .range)))
      | some r =>
        some ((s.setRegion index (r.bringOnline base pages first count)).setCall c (.idle .changed))
  | .offline index first count base pages =>
    match s.regions.region index with
    | none => some (s.setCall c (.idle (.refused .range)))
    | some r =>
      match r.takeOffline base pages first count with
      | .error why => some (s.setCall c (.idle (.refused why)))
      | .ok r => some ((s.setRegion index r).setCall c (.unmap base pages 0 .changed))
  | .unmap base pages done answer =>
    if arch = .x86_64 ∧ done < pages then
      some ((s.setMapped (base + done * PAGE) false).setCall c
        (.unmap base pages (done + 1) answer))
    else some (s.setCall c (.idle answer))

def step (s : World) : Event → Option World
  | .go c room => s.advance arch c room (s.calls c)
  | .register c base size block taken room =>
    match s.calls c with
    | .idle _ => some (s.setCall c (register arch s.regions base size block taken room))
    | _ => none
  | .online c index first count =>
    match s.calls c with
    | .idle _ =>
      match s.regions.span index first count with
      | .error why => some (s.setCall c (.idle (.refused why)))
      | .ok (base, pages) => some (s.setCall c (.look index first count base pages))
    | _ => none
  | .offline c index first count =>
    match s.calls c with
    | .idle _ =>
      match s.regions.span index first count with
      | .error why => some (s.setCall c (.idle (.refused why)))
      | .ok (base, pages) => some (s.setCall c (.offline index first count base pages))
    | _ => none
  | .take c =>
    match s.calls c with
    | .idle _ =>
      match s.regions.take with
      | none => some (s.setCall c (.idle (.took none)))
      | some (phys, regions) =>
        some ((s.setRegions regions).setCall c (.idle (.took (some phys))))
    | _ => none
  | .give c phys =>
    match s.calls c with
    | .idle _ =>
      match s.regions.give phys with
      | none => some (s.setCall c (.idle (.gave false)))
      | some regions => some ((s.setRegions regions).setCall c (.idle (.gave true)))
    | _ => none

end World

end LiberSystem.Hotplug
