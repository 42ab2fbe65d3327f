import Mathlib.Algebra.GroupWithZero.Nat
import Mathlib.Data.Nat.Log

/-!
# The buddy allocator

One bit per block per order, packed order after order into one vector of 64-bit words, with a hint
and a count per order. `new` refuses an extent whose bytes or whose end do not fit.
-/

namespace LiberSystem

def pageSize : Nat := 4096

def maxOrder : Nat := 18

structure Buddy where
  base : Nat
  pages : Nat
  /-- One bit per block per order: free, and a whole free block at this order. -/
  bits : List (BitVec 64)
  /-- Where each order's bitmap starts, in words. -/
  offsets : Nat → Nat
  words : Nat → Nat
  /-- The first word of each order that may hold a set bit. -/
  hint : Nat → Nat
  counts : Nat → Nat
  freePages : Nat

def orderForFrom (pages : Nat) : Nat → Nat → Nat
  | 0, order => order
  | n + 1, order => if 2 ^ order < pages then orderForFrom pages n (order + 1) else order

def orderFor (pages : Nat) : Nat := orderForFrom pages (maxOrder + 1) 0

namespace Buddy

def wordsFor (pages order : Nat) : Nat := (max (pages >>> order) 1 + 63) / 64

/-- Lay out the orders one after the other: where each starts, how many words it
has, and the words in total, which must fit a `usize`. -/
def layoutStep (pages : Nat) (acc : (Nat → Nat) × (Nat → Nat) × Nat) (order : Nat) :
    Option ((Nat → Nat) × (Nat → Nat) × Nat) :=
  let (offsets, words, total) := acc
  let w := wordsFor pages order
  if total + w < 2 ^ 64 then
    some (Function.update offsets order total, Function.update words order w, total + w)
  else none

/-- The metadata for an extent, with everything allocated. `room` is the heap's
answer to the reservation of the bitmap. -/
def new (room : Bool) (base pages : Nat) : Option Buddy :=
  if pages = 0 ∨ base % pageSize ≠ 0 then none
  else if 2 ^ 64 ≤ pages * pageSize then none
  else if 2 ^ 64 ≤ base + pages * pageSize then none
  else do
    let (offsets, words, total) ←
      (List.range (maxOrder + 1)).foldlM (layoutStep pages) (fun _ => 0, fun _ => 0, 0)
    if !room then none
    else some ⟨base,pages,List.replicate total 0,offsets,words,fun _ => 2 ^ 64 - 1,fun _ => 0,0⟩

variable (b : Buddy) (order : Nat)

def blocksAt : Nat := max (b.pages >>> order) 1

def word (order w : Nat) : BitVec 64 := b.bits.getD (b.offsets order + w) 0

def setWord (order w : Nat) (v : BitVec 64) : Buddy :=
  { b with bits := b.bits.set (b.offsets order + w) v }

def bitMask (index : Nat) : BitVec 64 := 1#64 <<< (index % 64)

def get (order index : Nat) : Bool :=
  if index ≥ b.blocksAt order then false
  else b.word order (index / 64) &&& bitMask index != 0

def set (order index : Nat) : Buddy :=
  let marked :=
    if b.word order (index / 64) &&& bitMask index = 0 then
      { b.setWord order (index / 64) (b.word order (index / 64) ||| bitMask index) with
        counts := Function.update b.counts order (b.counts order + 1) }
    else b
  if index / 64 < b.hint order then
    { marked with hint := Function.update b.hint order (index / 64) }
  else marked

def clear (order index : Nat) : Buddy :=
  if b.word order (index / 64) &&& bitMask index ≠ 0 then
    { b.setWord order (index / 64) (b.word order (index / 64) &&& ~~~(bitMask index)) with
      counts := Function.update b.counts order (b.counts order - 1) }
  else b

/-- Word `w` with the bits outside `[start, stop)` masked off, in the first and in
the last word of the range. -/
def maskedWord (order start stop w : Nat) : BitVec 64 :=
  let value := b.word order w
  let value :=
    if w = start / 64 then value &&& (BitVec.allOnes 64 <<< (start % 64)) else value
  if w = (stop - 1) / 64 ∧ stop % 64 ≠ 0 then
    value &&& (BitVec.allOnes 64 >>> (64 - stop % 64))
  else value

def anyBitInRange (order start count : Nat) : Bool :=
  let stop := min (start + count) (b.blocksAt order)
  if start ≥ stop then false
  else
    let firstWord := start / 64
    let lastWord := (stop - 1) / 64
    (List.range' firstWord (lastWord + 1 - firstWord)).any fun w =>
      b.maskedWord order start stop w != 0

/-- Does the block overlap anything that is free: a block that covers it, itself
included, or a smaller block inside it? -/
def blockTouchesFree (page order : Nat) : Bool :=
  (List.range' order (maxOrder + 1 - order)).any (fun k => b.get k (page >>> k)) ||
    (List.range order).any fun k => b.anyBitInRange k (page >>> k) (1 <<< (order - k))

def scan : Option Nat :=
  let start := min (b.hint order) (b.words order)
  (List.range' start (b.words order - start)).find? fun w => b.word order w != 0

def lowestIn (order w : Nat) : Option Nat :=
  let index := w * 64 + (b.word order w).ctz.toNat
  if index < b.blocksAt order then some index else none

/-- The lowest free block of an order. The hint moves over the words that were empty. -/
def firstFree : Option Nat × Buddy :=
  if b.counts order = 0 then (none, b)
  else
    match b.scan order with
    | some w => (b.lowestIn order w, { b with hint := Function.update b.hint order w })
    | none => (none, { b with hint := Function.update b.hint order (b.words order) })

def peekFirstFree : Option Nat :=
  if b.counts order = 0 then none
  else
    match b.scan order with
    | some w => b.lowestIn order w
    | none => none

def findFree (b : Buddy) : List Nat → Option (Nat × Nat) × Buddy
  | [] => (none, b)
  | larger :: rest =>
    match b.firstFree larger with
    | (some index, b) => (some (larger, index), b)
    | (none, b) => findFree b rest

/-- Split a block `n` orders down to `order`. The lower half is kept at each step
and the upper half becomes free. -/
def splitDown (b : Buddy) (order : Nat) : Nat → Nat → Nat × Buddy
  | 0, index => (index, b)
  | n + 1, index => splitDown (b.set (order + n) (index * 2 + 1)) order n (index * 2)

def addressOf (order index : Nat) : Nat := b.base + index * 2 ^ order * pageSize

def takeBlock (order larger index : Nat) : Nat × Buddy :=
  let (index, b) := (b.clear larger index).splitDown order (larger - order) index
  (b.addressOf order index, { b with freePages := b.freePages - 2 ^ order })

def alloc : Option Nat × Buddy :=
  if order > maxOrder then (none, b)
  else
    match b.findFree (List.range' order (maxOrder + 1 - order)) with
    | (none, b) => (none, b)
    | (some (larger, index), b) =>
      let (phys, b) := b.takeBlock order larger index
      (some phys, b)

def mergeUp (b : Buddy) : Nat → Nat → Nat → Nat × Nat × Buddy
  | 0, k, index => (k, index, b)
  | n + 1, k, index =>
    let buddy := index ^^^ 1
    if !b.get k buddy then (k, index, b)
    -- a buddy that would take the block past the end of the extent is not one
    else if (index / 2 * 2) <<< k + 2 <<< k > b.pages then (k, index, b)
    else mergeUp (b.clear k buddy) n (k + 1) (index >>> 1)

def freeInner (phys order : Nat) (refuseDouble : Bool) : Bool × Buddy :=
  if order > maxOrder ∨ phys < b.base then (false, b)
  else if (phys - b.base) % pageSize ≠ 0 then (false, b)
  else
    let page := (phys - b.base) / pageSize
    if page % 2 ^ order ≠ 0 ∨ page ≥ b.pages then (false, b)
    else if page + 2 ^ order > b.pages then (false, b)
    else if refuseDouble && b.blockTouchesFree page order then (false, b)
    else
      let (k, index, b) := b.mergeUp (maxOrder - order) order (page >>> order)
      let b := b.set k index
      (true, { b with freePages := b.freePages + 2 ^ order })

def free (phys order : Nat) : Bool × Buddy := b.freeInner phys order true

def freeBlockOrSplit (b : Buddy) (phys : Nat) : Nat → Nat × Buddy
  | 0 =>
    match b.free phys 0 with
    | (true, b) => (1, b)
    | (false, b) => (0, b)
  | half + 1 =>
    match b.free phys (half + 1) with
    | (true, b) => (2 ^ (half + 1), b)
    | (false, b) =>
      let (lower, b) := freeBlockOrSplit b phys half
      let (upper, b) := freeBlockOrSplit b (phys + 2 ^ half * pageSize) half
      (lower + upper, b)

/-- The largest order that the alignment of `page` admits and that fits into `left`
pages. `63 - leading_zeros` of a nonzero `u64` is its binary logarithm. -/
def spanOrder (page left : Nat) : Nat :=
  let byAlignment :=
    if page = 0 then maxOrder else min (BitVec.ofNat 64 page).ctz.toNat maxOrder
  let bySize := min (Nat.log2 left) maxOrder
  min byAlignment bySize

/-- Frame `left` pages from address `at` into blocks and free them. Every block has
at least one page, so `left` blocks are enough. -/
def freeSpanLoop (b : Buddy) : Nat → Nat → Nat → Nat → Nat × Buddy
  | 0, _, _, taken => (taken, b)
  | n + 1, phys, left, taken =>
    if left = 0 then (taken, b)
    else
      let order := spanOrder ((phys - b.base) / pageSize) left
      let (got, b) := b.freeBlockOrSplit phys order
      freeSpanLoop b n (phys + 2 ^ order * pageSize) (left - 2 ^ order) (taken + got)

def freeSpan (phys pages : Nat) : Nat × Buddy :=
  if phys < b.base ∨ (phys - b.base) % pageSize ≠ 0 then (0, b)
  else
    let first := (phys - b.base) / pageSize
    if first ≥ b.pages then (0, b)
    else
      let left := min pages (b.pages - first)
      b.freeSpanLoop left phys left 0

def returnRest (phys order pages : Nat) : Buddy :=
  if 2 ^ order > pages then (b.freeSpan (phys + pages * pageSize) (2 ^ order - pages)).2 else b

def allocContiguous (pages : Nat) : Option Nat × Buddy :=
  if pages = 0 then (none, b)
  else
    let order := orderFor pages
    if order > maxOrder then (none, b)
    else
      match b.alloc order with
      | (none, b) => (none, b)
      | (some phys, b) => (some phys, b.returnRest phys order pages)

def allocContiguousBelow (pages limit : Nat) : Option Nat × Buddy :=
  if pages = 0 then (none, b)
  else
    let order := orderFor pages
    if order > maxOrder then (none, b)
    else if 2 ^ 64 ≤ pages * pageSize then (none, b)
    else
      let fits := (List.range' order (maxOrder + 1 - order)).find? fun larger =>
        match b.peekFirstFree larger with
        | none => false
        | some index =>
          let stop := b.addressOf larger index + pages * pageSize
          stop < 2 ^ 64 && stop ≤ limit
      match fits with
      | none => (none, b)
      | some larger =>
        match b.firstFree larger with
        | (none, b) => (none, b)
        | (some index, b) =>
          let (phys, b) := b.takeBlock order larger index
          (some phys, b.returnRest phys order pages)

end Buddy

end LiberSystem
