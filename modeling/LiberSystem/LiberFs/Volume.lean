import Mathlib.Data.Finset.Basic
import LiberSystem.Lib.Bytes
import LiberSystem.Lib.Fallible

/-!
# A mounted LiberFS volume

The device answers every read and every write. Memory may be refused at every `try_zeroed`; what
the allocator of the machine answers from now on is kept beside the volume. A panic is an outcome
of its own.
-/

namespace LiberSystem

def blockSize : ℕ := 4096

def poolStart : ℕ := 2

def maxBlocks : ℕ := 2 ^ 40

abbrev Block := Bytes blockSize

/-- The checksum of the format. Nothing here depends on which function it is. -/
class Checksum where
  crc32c : List UInt8 → UInt32

def Block.crc [Checksum] (b : Block) : UInt32 := Checksum.crc32c (b.slice 0 blockSize)

inductive FsError
  | notFound | noSpace | tooLong | badName | isDir | notDir | notEmpty | exists_ | invalid
  | corrupt | io | readOnly | noMemory | tooLarge | commitUncertain
  deriving DecidableEq, Repr

inductive Fault
  | err (e : FsError)
  | panic
  deriving DecidableEq, Repr

structure LiberFs where
  dev : ℕ → Block
  numBlocks : ℕ
  /-- The free map, one bit per block, eight to a byte: set for a block in use. -/
  free : ℕ → BitVec 8
  /-- Where the next scan for a data block starts, going up. -/
  dataCursor : ℕ
  /-- Where the next scan for a metadata block starts, going down. -/
  metaCursor : ℕ
  /-- Blocks that the transaction in flight allocated. -/
  fresh : Finset ℕ
  /-- Committed blocks that the transaction in flight stopped referencing. -/
  dead : Finset ℕ
  /-- The checksum block being assembled. -/
  wcsum : Option (ℕ × Block)
  /-- The checksum block verified last, with its checksum. -/
  rcsum : Option (ℕ × UInt32 × Block)
  /-- Runs decompressed lately, by first stored block, length and stream length. -/
  decomp : List ((ℕ × ℕ × ℕ) × List UInt8)

/-- The volume and what the machine will answer to requests for memory. -/
structure Machine where
  fs : LiberFs
  heap : ℕ → Bool

abbrev FsM (α : Type) := Fallible Machine Fault α

namespace FsM

open Fallible

def getFs : FsM LiberFs := do return (← get).fs

def modifyFs (f : LiberFs → LiberFs) : FsM Unit := modify fun m => { m with fs := f m.fs }

def check (c : Prop) [Decidable c] (e : FsError) : FsM Unit := ensure c (.err e)

def tryZeroed : FsM Block := do
  let m ← get
  set { m with heap := fun i => m.heap (i + 1) }
  check (m.heap 0 = true) .noMemory
  return Bytes.zeros

def readBlock (index : ℕ) : FsM Block := do return (← getFs).dev index

def writeBlock (index : ℕ) (buf : Block) : FsM Unit :=
  modifyFs fun fs => { fs with dev := Function.update fs.dev index buf }

variable {α : Type} {Q : α → Machine → Prop} {E : Fault → Machine → Prop} {m : Machine} {i : ℕ}

@[simp] theorem wp_getFs {Q : LiberFs → Machine → Prop} : wp getFs Q E m = Q m.fs m := rfl

@[simp] theorem wp_modifyFs {f : LiberFs → LiberFs} {Q : Unit → Machine → Prop} :
    wp (modifyFs f) Q E m = Q () { m with fs := f m.fs } := rfl

@[simp] theorem wp_check {c : Prop} [Decidable c] {e : FsError} {Q : Unit → Machine → Prop} :
    wp (check c e) Q E m = if c then Q () m else E (.err e) m := wp_ensure

@[simp] theorem wp_readBlock {Q : Block → Machine → Prop} :
    wp (readBlock i) Q E m = Q (m.fs.dev i) m := rfl

@[simp] theorem wp_writeBlock {b : Block} {Q : Unit → Machine → Prop} :
    wp (writeBlock i b) Q E m =
      Q () { m with fs := { m.fs with dev := Function.update m.fs.dev i b } } := rfl

theorem wp_tryZeroed {Q : Block → Machine → Prop} : wp tryZeroed Q E m =
    if m.heap 0 = true then Q Bytes.zeros { m with heap := fun i => m.heap (i + 1) }
    else E (.err .noMemory) { m with heap := fun i => m.heap (i + 1) } := by
  simp [tryZeroed]

theorem wp_tryZeroed_of {Q : Block → Machine → Prop}
    (hQ : ∀ m', m'.fs = m.fs → Q Bytes.zeros m') : wp tryZeroed Q (fun _ _ => True) m := by
  rw [wp_tryZeroed]
  split
  · exact hQ _ rfl
  · trivial

end FsM

namespace LiberFs

variable (fs : LiberFs) (block : ℕ)

def isAlloc : Bool := (fs.free (block / 8)).getLsbD (block % 8)

def claim : LiberFs :=
  { fs with
    free := Function.update fs.free (block / 8) (fs.free (block / 8) ||| 1#8 <<< (block % 8))
    fresh := insert block fs.fresh }

def forgetBlock : LiberFs :=
  { fs with
    wcsum := fs.wcsum.filter fun w => w.1 ≠ block
    rcsum := fs.rcsum.filter fun r => r.1 ≠ block
    decomp := fs.decomp.filter fun d => d.1.1 ≠ block }

def unclaim : LiberFs :=
  forgetBlock
    { fs with
      free := Function.update fs.free (block / 8) (fs.free (block / 8) &&& ~~~(1#8 <<< (block % 8)))
      fresh := fs.fresh.erase block } block

/-- Record that the transaction stopped referencing a block: one it allocated itself
returns to the pool, a committed one is dead. -/
def dropBlock (ptr : ℕ) : LiberFs :=
  if ptr = 0 then fs
  else if ptr ∈ fs.fresh then fs.unclaim ptr
  else forgetBlock { fs with dead := insert ptr fs.dead } ptr

/-- The blocks up to the next byte boundary: a free one, or where the loop ends. At
most seven turns. -/
def scanUpEdge (fs : LiberFs) : ℕ → ℕ → ℕ ⊕ ℕ
  | 0, block => .inr block
  | fuel + 1, block =>
    if block < fs.numBlocks ∧ block % 8 ≠ 0 then
      if fs.isAlloc block then scanUpEdge fs fuel (block + 1) else .inl block
    else .inr block

def scanUpBytes (fs : LiberFs) : ℕ → ℕ → Option ℕ
  | 0, _ => none
  | fuel + 1, byte =>
    if fs.free byte ≠ 0xFF#8 then
      let candidate := byte * 8 + (~~~(fs.free byte)).ctz.toNat
      if candidate < fs.numBlocks then some candidate else none
    else scanUpBytes fs fuel (byte + 1)

def scanUp (start : ℕ) : Option ℕ :=
  let block := max start poolStart
  if block ≥ fs.numBlocks then none
  else
    match scanUpEdge fs 8 block with
    | .inl found => some found
    | .inr block => scanUpBytes fs ((fs.numBlocks - 1) / 8 + 1 - block / 8) (block / 8)

/-- The blocks down to the next byte boundary: a free one, or where the loop ends. -/
def scanDownEdge (fs : LiberFs) : ℕ → ℕ ⊕ ℕ
  | 0 => .inr 0
  | block + 1 =>
    if block + 1 > poolStart ∧ (block + 1) % 8 ≠ 7 then
      if fs.isAlloc (block + 1) then scanDownEdge fs block else .inl (block + 1)
    else .inr (block + 1)

def lastFree (byte : ℕ) : Option ℕ :=
  let candidate := byte * 8 + (7 - (~~~(fs.free byte)).clz.toNat)
  if candidate ≥ poolStart then some candidate else none

/-- Whole bytes downwards. The first byte of the map holds the pool's first block. -/
def scanDownBytes (fs : LiberFs) : ℕ → Option ℕ
  | 0 => if fs.free 0 ≠ 0xFF#8 then fs.lastFree 0 else none
  | byte + 1 =>
    if fs.free (byte + 1) ≠ 0xFF#8 then fs.lastFree (byte + 1) else scanDownBytes fs byte

def scanDown (start : ℕ) : Option ℕ :=
  let block := min start (fs.numBlocks - 1)
  if block < poolStart then none
  else
    match scanDownEdge fs block with
    | .inl found => some found
    | .inr block =>
      if block = poolStart then if fs.isAlloc block then none else some block
      else scanDownBytes fs (block / 8)

end LiberFs

namespace FsM

open LiberFs

/-- Claim one free block, data from the low end of the pool and metadata from the high
end. -/
def allocBlock (forMeta : Bool) : FsM ℕ := do
  let fs ← getFs
  if forMeta then
    match (fs.scanDown fs.metaCursor).or (fs.scanDown (fs.numBlocks - 1)) with
    | some block =>
      modifyFs fun fs => { fs.claim block with metaCursor := block }
      return block
    | none => throw (.err .noSpace)
  else
    match (fs.scanUp fs.dataCursor).or (fs.scanUp poolStart) with
    | some block =>
      modifyFs fun fs => { fs.claim block with dataCursor := block + 1 }
      return block
    | none => throw (.err .noSpace)

def allocMeta : FsM ℕ := allocBlock true

def dropBlock (ptr : ℕ) : FsM Unit := modifyFs fun fs => fs.dropBlock ptr

end FsM

end LiberSystem
