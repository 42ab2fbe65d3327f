import LiberSystem.LiberFs.Blocks
import LiberSystem.LiberFs.Node

/-!
# The block trees

The operations that the inode tree and the directory trees share. The two recursions are written
once, with what happens in a leaf as an argument.
-/

namespace LiberSystem

open Fallible FsM

inductive NodeFault
  | countAboveCapacity
  | truncated (held claimed : ℕ)
  | outOfOrder
  | storedHashMismatch
  | nameNotAddressable
  | separatorsOutOfOrder
  | childMissing (slot : ℕ)
  deriving DecidableEq, Repr

def Block.validateInternal (buf : Block) : Option NodeFault :=
  if buf.nodeCount > internalMax - 1 then some .countAboveCapacity
  else if (List.range (buf.internalCount - 1)).any fun i => buf.sepKey (i + 1) ≤ buf.sepKey i then
    some .separatorsOutOfOrder
  else
    ((List.range (buf.internalCount + 1)).find? fun i => buf.childPtr i = 0).map .childMissing

/-- The outcome of an insertion into a subtree: the node was rewritten, or split. -/
inductive Ins
  | updated (link : Link)
  | split (left : Link) (sep : ℕ) (right : Link)

inductive Del
  | notFound
  | updated (link : Link)
  | empty

namespace FsM

variable [Checksum]

def readNodeRaw (link : Link) : FsM Block := do
  let fs ← getFs
  check (link.ptr < fs.numBlocks) .corrupt
  let buf ← readBlock link.ptr
  check (buf.crc = link.crc) .corrupt
  return buf

def readNode (link : Link) : FsM Block := do
  let buf ← readNodeRaw link
  check (buf.nodeType = nodeInternal ∨ buf.nodeType = nodeLeaf) .corrupt
  return buf

/-- The block to write an updated node to: its own if this transaction allocated it,
else a new one, and the committed original is dropped. -/
def nodeDest (ptr : ℕ) : FsM ℕ := do
  let fs ← getFs
  if ptr ≠ 0 ∧ ptr ∈ fs.fresh then return ptr
  else
    let fresh ← allocMeta
    dropBlock ptr
    return fresh

def writeNodeTo (ptr : ℕ) (buf : Block) : FsM Link := do
  writeBlock ptr buf
  return ⟨ptr,buf.crc⟩

def settleRoot : Ins → FsM Link
  | .updated link => return link
  | .split left sep right => do
    let blk ← allocMeta
    let _ ← tryZeroed
    writeNodeTo blk (Block.newInternal [sep] [left,right])

def internalAbsorb (buf : Block) (ptr ci : ℕ) : Ins → FsM Ins
  | .updated link => do
    let dest ← nodeDest ptr
    return .updated (← writeNodeTo dest (buf.setChild ci link))
  | .split left sep right =>
    if buf.internalCount + 2 ≤ internalMax then do
      let dest ← nodeDest ptr
      return .updated (← writeNodeTo dest (buf.growInternal buf.internalCount ci sep left right))
    else do
      let seps := ((List.range buf.internalCount).map buf.sepKey).insertIdx ci sep
      let kids := (((List.range (buf.internalCount + 1)).map buf.childLink).set ci left).insertIdx
        (ci + 1) right
      let mid := seps.length / 2
      let leftDest ← nodeDest ptr
      let rightDest ← allocMeta
      let _ ← tryZeroed
      let lbuf := Block.newInternal (seps.take mid) (kids.take (mid + 1))
      let _ ← tryZeroed
      let rbuf := Block.newInternal (seps.drop (mid + 1)) (kids.drop (mid + 1))
      let llink ← writeNodeTo leftDest lbuf
      let rlink ← writeNodeTo rightDest rbuf
      return .split llink (seps.getD mid 0) rlink

/-- Change what is below a node: at a leaf by `leaf`, below an internal node in the child that
`key` is routed to, the outcome going to `absorb`. At most `depth` levels. -/
def changeNode {Out : Type} (leaf : ℕ → Block → FsM Out) (absorb : Block → ℕ → ℕ → Out → FsM Out)
    (key : ℕ) : ℕ → Link → FsM Out
  | 0, _ => throw (.err .corrupt)
  | depth + 1, link => do
    let _ ← tryZeroed
    let buf ← readNode link
    if buf.nodeType = nodeLeaf then leaf link.ptr buf
    else do
      check (buf.validateInternal = none) .corrupt
      let ci := buf.routeChild buf.internalCount key
      let outcome ← changeNode leaf absorb key depth (buf.childLink ci)
      absorb buf link.ptr ci outcome

def insertNode (leaf : ℕ → Block → FsM Ins) : ℕ → ℕ → Link → FsM Ins :=
  changeNode leaf internalAbsorb

def internalAbsorbDel (buf : Block) (ptr ci : ℕ) : Del → FsM Del
  | .notFound => return .notFound
  | .updated link => do
    let dest ← nodeDest ptr
    return .updated (← writeNodeTo dest (buf.setChild ci link))
  | .empty =>
    if buf.internalCount = 0 then do
      dropBlock ptr
      return .empty
    else do
      let dest ← nodeDest ptr
      return .updated (← writeNodeTo dest (buf.shrinkInternal buf.internalCount ci))

def deleteNode (leaf : ℕ → Block → FsM Del) : ℕ → ℕ → Link → FsM Del :=
  changeNode leaf internalAbsorbDel

def collapseFrom : ℕ → Link → FsM Link
  | 0, _ => throw (.err .corrupt)
  | depth + 1, link => do
    let buf ← readNode link
    if buf.nodeType = nodeInternal ∧ buf.nodeCount = 0 then do
      dropBlock link.ptr
      collapseFrom depth (buf.childLink 0)
    else return link

/-- Collapse a root that became an internal node with a single child, repeatedly. -/
def collapseRoot (link : Link) : FsM Link := do
  let _ ← tryZeroed
  collapseFrom treeDepthMax link

def settleDel (root : Link) : Del → FsM (Link × Bool)
  | .notFound => return (root, false)
  | .empty => return (⟨0,0⟩, true)
  | .updated link => return (← collapseRoot link, true)

/-- Go down to the leaf that `key` is routed to, through at most `depth` levels, and
answer by `leaf`. -/
def descend {α : Type} (leaf : Block → α) (key : ℕ) : ℕ → Link → FsM α
  | 0, _ => throw (.err .corrupt)
  | depth + 1, link => do
    let buf ← readNode link
    if buf.nodeType = nodeLeaf then return leaf buf
    else descend leaf key depth (buf.childLink (buf.routeChild buf.internalCount key))

end FsM

end LiberSystem
