import Mathlib.Tactic.Ring
import LiberSystem.Lib.BTree
import LiberSystem.LiberFs.Volume

/-!
# Nodes of the block trees

`IsInternal b seps links` says what an internal node holds; the edits of the source, which shift
parts of the regions of separators and of child links, are the insertion and removal of list
elements.
-/

namespace LiberSystem

open List Bytes

def nodeInternal : UInt8 := 0
def nodeLeaf : UInt8 := 1
def nodeHdr : ℕ := 8
def sepSize : ℕ := 8
def childSize : ℕ := 12

def internalMax : ℕ := (blockSize - nodeHdr + sepSize) / (sepSize + childSize)

def internalChildBase : ℕ := nodeHdr + sepSize * (internalMax - 1)

def treeDepthMax : ℕ := 64

/-- A link to a node: its block and the checksum of its content. -/
structure Link where
  ptr : ℕ
  crc : UInt32
  deriving DecidableEq

namespace Block

variable (b : Block) (i : ℕ)

def nodeType : UInt8 := b.get 0

def nodeCount : ℕ := b.num 2 2

def internalCount : ℕ := min b.nodeCount (internalMax - 1)

def nodeSetHeader (typ : UInt8) (count : ℕ) : Block :=
  ((b.put 0 (List.replicate nodeHdr 0)).put 0 [typ]).putNum 2 2 count

def sepKey : ℕ := b.num 8 (nodeHdr + i * sepSize)

def setSep (key : ℕ) : Block := b.putNum 8 (nodeHdr + i * sepSize) key

def childPtr : ℕ := b.num 8 (internalChildBase + i * childSize)

def childCrc : UInt32 :=
  UInt32.ofNat (b.num 4 (internalChildBase + i * childSize + 8))

def setChild (l : Link) : Block :=
  (b.putNum 8 (internalChildBase + i * childSize) l.ptr).putNum 4
    (internalChildBase + i * childSize + 8) l.crc.toNat

def childLink : Link := ⟨b.childPtr i,b.childCrc i⟩

def routeFrom (b : Block) (key : ℕ) : ℕ → ℕ → ℕ
  | 0, ci => ci
  | n + 1, ci => if b.sepKey ci ≤ key then routeFrom b key n (ci + 1) else ci

def routeChild (count key : ℕ) : ℕ := routeFrom b key count 0

def setSeps (b : Block) (i : ℕ) : List ℕ → Block
  | [] => b
  | s :: ss => setSeps (b.setSep i s) (i + 1) ss

def setChildren (b : Block) (i : ℕ) : List Link → Block
  | [] => b
  | l :: ls => setChildren (b.setChild i l) (i + 1) ls

def newInternal (seps : List ℕ) (links : List Link) : Block :=
  setChildren (setSeps (nodeSetHeader Bytes.zeros nodeInternal seps.length) 0 seps) 0 links

/-- Take the halves of child `ci` in: shift the separators and the links behind it and
write the lifted separator and the two links. -/
def growInternal (count ci sep : ℕ) (left right : Link) : Block :=
  let sstart := nodeHdr + ci * sepSize
  let send := nodeHdr + count * sepSize
  let cstart := internalChildBase + (ci + 1) * childSize
  let cend := internalChildBase + (count + 1) * childSize
  let b : Block := setSep (b.copyWithin sstart (send - sstart) (sstart + sepSize)) ci sep
  let b : Block := b.copyWithin cstart (cend - cstart) (cstart + childSize)
  nodeSetHeader ((b.setChild ci left).setChild (ci + 1) right) nodeInternal (count + 1)

/-- Drop child `ci` and a separator beside it: the one to its left if it is the last
child, else the one to its right. -/
def shrinkInternal (count ci : ℕ) : Block :=
  let sidx := if ci = count then ci - 1 else ci
  let sstart := nodeHdr + sidx * sepSize
  let send := nodeHdr + count * sepSize
  let cstart := internalChildBase + ci * childSize
  let cend := internalChildBase + (count + 1) * childSize
  let b : Block := b.copyWithin (sstart + sepSize) (send - (sstart + sepSize)) sstart
  let b : Block := b.copyWithin (cstart + childSize) (cend - (cstart + childSize)) cstart
  nodeSetHeader b nodeInternal (count - 1)

variable {b i} {j n key count : ℕ} {typ : UInt8} {l : Link}

theorem sepKey_eq : b.sepKey i = b.num 8 (8 + i * 8) := rfl

theorem childLink_eq : b.childLink i =
    ⟨b.num 8 (1632 + i * 12),UInt32.ofNat (b.num 4 (1632 + i * 12 + 8))⟩ := rfl

theorem setSep_eq : b.setSep i key = putNum b 8 (8 + i * 8) key := rfl

theorem setChild_eq : b.setChild i l =
    putNum (putNum b 8 (1632 + i * 12) l.ptr) 4 (1632 + i * 12 + 8) l.crc.toNat := rfl

theorem header_congr {b' : Block} (h : ∀ i < 8, b'.get i = b.get i) :
    b'.nodeType = b.nodeType ∧ b'.nodeCount = b.nodeCount := by
  refine ⟨h 0 (by decide),?_⟩
  rw [nodeCount,nodeCount,num,num,slice_congr fun i hi => h (2 + i) (by omega)]

theorem header_put {off : ℕ} {bs : List UInt8} (h : 8 ≤ off) :
    nodeType (b.put off bs) = b.nodeType ∧ nodeCount (b.put off bs) = b.nodeCount :=
  header_congr fun i hi => get_put_of_disjoint (by omega)

theorem header_setSep : (b.setSep i key).nodeType = b.nodeType ∧
    (b.setSep i key).nodeCount = b.nodeCount := header_put (by simp [nodeHdr])

theorem header_setChild : (b.setChild i l).nodeType = b.nodeType ∧
    (b.setChild i l).nodeCount = b.nodeCount := by
  have hbase : 8 ≤ internalChildBase + i * childSize := by
    have : internalChildBase = 1632 := rfl
    omega
  rw [setChild,putNum,putNum,(header_put (Nat.le_add_right_of_le hbase)).1,
    (header_put (Nat.le_add_right_of_le hbase)).2]
  exact header_put hbase

theorem nodeType_setHeader : (b.nodeSetHeader typ count).nodeType = typ := by
  rfl

theorem nodeCount_setHeader (h : count < 2 ^ 16) : (b.nodeSetHeader typ count).nodeCount = count :=
  num_putNum_self (by simpa using h) (by decide)

theorem num_setHeader {w o : ℕ} (h : 8 ≤ o) : (b.nodeSetHeader typ count).num w o = b.num w o := by
  rw [nodeSetHeader,num_putNum_of_disjoint (by omega),num_put_of_disjoint,num_put_of_disjoint]
  · simp only [length_replicate,nodeHdr]
    omega
  · simp only [length_singleton]
    omega

theorem sepKey_setHeader : (b.nodeSetHeader typ count).sepKey i = b.sepKey i :=
  num_setHeader (by simp [nodeHdr])

theorem childLink_setHeader : (b.nodeSetHeader typ count).childLink i = b.childLink i := by
  rw [childLink_eq,childLink_eq,num_setHeader (by omega),num_setHeader (by omega)]

theorem sepKey_setSep_self (hi : i ≤ 202) (hkey : key < 2 ^ 64) : (b.setSep i key).sepKey i = key :=
  num_putNum_self (by simpa using hkey) (by simp only [nodeHdr,sepSize,blockSize]; omega)

theorem sepKey_setSep_of_ne (h : i ≠ j) : (b.setSep i key).sepKey j = b.sepKey j := by
  rw [sepKey_eq,setSep_eq,num_putNum_of_disjoint (by omega),sepKey_eq]

theorem sepKey_setChild (hj : j ≤ 202) : (b.setChild i l).sepKey j = b.sepKey j := by
  rw [sepKey_eq,setChild_eq,num_putNum_of_disjoint (by omega),
    num_putNum_of_disjoint (by omega),sepKey_eq]

theorem childLink_setSep (hi : i ≤ 202) : (b.setSep i key).childLink j = b.childLink j := by
  rw [childLink_eq,setSep_eq,num_putNum_of_disjoint (by omega),
    num_putNum_of_disjoint (by omega),childLink_eq]

theorem childLink_setChild_self (hi : i ≤ 203) (hl : l.ptr < 2 ^ 64) :
    (b.setChild i l).childLink i = l := by
  have hsize : blockSize = 4096 := rfl
  have hcrc : l.crc.toNat < 256 ^ 4 := l.crc.toNat_lt
  rw [childLink_eq,setChild_eq,num_putNum_self hcrc (by omega),
    num_putNum_of_disjoint (by omega),num_putNum_self (by simpa using hl) (by omega),
    UInt32.ofNat_toNat]

theorem childLink_setChild_of_ne (h : i ≠ j) : (b.setChild i l).childLink j = b.childLink j := by
  rw [childLink_eq,setChild_eq,num_putNum_of_disjoint (by omega),
    num_putNum_of_disjoint (by omega),num_putNum_of_disjoint (by omega),
    num_putNum_of_disjoint (by omega),childLink_eq]

/-- The block is an internal node with these separators and links. -/
structure IsInternal (b : Block) (seps : List ℕ) (links : List Link) : Prop where
  kind : b.nodeType = nodeInternal
  count : b.nodeCount = seps.length
  length : links.length = seps.length + 1
  fits : seps.length ≤ 203
  sep : ∀ i, (h : i < seps.length) → b.sepKey i = seps[i]
  link : ∀ i, (h : i < links.length) → b.childLink i = links[i]

variable {seps : List ℕ} {links : List Link}

theorem IsInternal.internalCount (h : IsInternal b seps links) : b.internalCount = seps.length := by
  rw [Block.internalCount,h.count]
  exact min_eq_left h.fits

theorem IsInternal.ne_leaf (h : IsInternal b seps links) : b.nodeType ≠ nodeLeaf := by
  rw [h.kind]
  decide

variable {x : ℕ}

theorem route_drop (h : i < seps.length) : route (seps.drop i) x =
    if seps[i] ≤ x then route (seps.drop (i + 1)) x + 1 else 0 := by
  rw [drop_eq_getElem_cons,route_cons]

section

variable (h : IsInternal b seps links)
include h

theorem routeFrom_eq (hn : i + n = seps.length) :
    b.routeFrom x n i = i + route (seps.drop i) x := by
  induction n generalizing i with
  | zero =>
    rw [drop_of_length_le (by omega)]
    rfl
  | succ n ih =>
    have hi : i < seps.length := by omega
    rw [routeFrom,h.sep i hi,route_drop hi]
    split
    · rw [ih (by omega)]
      omega
    · rfl

theorem IsInternal.routeChild : b.routeChild b.internalCount x = route seps x := by
  rw [Block.routeChild,routeFrom_eq h (by rw [h.internalCount,Nat.zero_add]),Nat.zero_add,drop_zero]

theorem IsInternal.setChild (hi : i < links.length)
    (hl : l.ptr < 2 ^ 64) : IsInternal (b.setChild i l) seps (links.set i l) where
  kind := header_setChild.1.trans h.kind
  count := header_setChild.2.trans h.count
  length := by rw [length_set,h.length]
  fits := h.fits
  sep j hj := by
    have := h.fits
    rw [sepKey_setChild (by omega),h.sep]
  link j hj := by
    have hfits := h.fits
    have hlen := h.length
    rw [getElem_set]
    split
    · next heq =>
      subst heq
      exact childLink_setChild_self (by omega) hl
    · next hne => rw [childLink_setChild_of_ne hne,h.link]

end

theorem setsInARow_setSeps : SetsInARow setSep setSeps := ⟨fun _ _ => rfl,fun _ _ _ _ => rfl⟩

theorem setsInARow_setChildren : SetsInARow setChild setChildren :=
  ⟨fun _ _ => rfl,fun _ _ _ _ => rfl⟩

theorem isInternal_newInternal (hlen : links.length = seps.length + 1) (hfits : seps.length ≤ 203)
    (hkey : ∀ s ∈ seps, s < 2 ^ 64) (hptr : ∀ l ∈ links, l.ptr < 2 ^ 64) :
    IsInternal (newInternal seps links) seps links where
  kind := by
    rw [newInternal,setsInARow_setChildren.keeps fun _ _ _ _ => header_setChild.1,
      setsInARow_setSeps.keeps fun _ _ _ _ => header_setSep.1,nodeType_setHeader]
  count := by
    rw [newInternal,setsInARow_setChildren.keeps fun _ _ _ _ => header_setChild.2,
      setsInARow_setSeps.keeps fun _ _ _ _ => header_setSep.2,nodeCount_setHeader (by omega)]
  length := hlen
  fits := hfits
  sep j hj := by
    have hsep := setsInARow_setSeps.get (b := nodeSetHeader zeros nodeInternal seps.length) (i := 0)
      (n := 203) (fun _ _ _ hk => sepKey_setSep_self (by omega))
      (fun _ _ _ _ => sepKey_setSep_of_ne) (by omega) hkey hj
    rw [Nat.zero_add] at hsep
    rw [newInternal,← hsep]
    exact setsInARow_setChildren.keeps (r := (sepKey · j)) fun _ _ _ _ => sepKey_setChild (by omega)
  link j hj := by
    have hlink := setsInARow_setChildren.get
      (b := setSeps (nodeSetHeader zeros nodeInternal seps.length) 0 seps) (i := 0) (n := 204)
      (fun _ _ _ hk => childLink_setChild_self (by omega))
      (fun _ _ _ _ => childLink_setChild_of_ne) (by omega) hptr hj
    rwa [Nat.zero_add] at hlink

section Shift

variable {src len dst : ℕ}

theorem sepKey_copyWithin_of_disjoint (h : 8 + j * 8 + 8 ≤ dst ∨ dst + len ≤ 8 + j * 8) :
    sepKey (copyWithin b src len dst) j = b.sepKey j :=
  num_copyWithin_of_disjoint h

theorem sepKey_copyWithin (hlo : dst ≤ 8 + j * 8) (hhi : 8 + j * 8 + 8 ≤ dst + len) (hj : j ≤ 202)
    (heq : src + (8 + j * 8 - dst) = 8 + i * 8) :
    sepKey (copyWithin b src len dst) j = b.sepKey i := by
  have hsize : blockSize = 4096 := rfl
  rw [sepKey_eq,num_copyWithin hlo hhi (by omega),heq,sepKey_eq]

theorem childLink_copyWithin_of_disjoint
    (h : 1632 + j * 12 + 12 ≤ dst ∨ dst + len ≤ 1632 + j * 12) :
    childLink (copyWithin b src len dst) j = b.childLink j := by
  rw [childLink_eq,num_copyWithin_of_disjoint (by omega),
    num_copyWithin_of_disjoint (by omega),childLink_eq]

theorem childLink_copyWithin (hlo : dst ≤ 1632 + j * 12) (hhi : 1632 + j * 12 + 12 ≤ dst + len)
    (hj : j ≤ 203) (heq : src + (1632 + j * 12 - dst) = 1632 + i * 12) :
    childLink (copyWithin b src len dst) j = b.childLink i := by
  have hsize : blockSize = 4096 := rfl
  have heq' : src + (1632 + j * 12 + 8 - dst) = 1632 + i * 12 + 8 := by omega
  rw [childLink_eq,num_copyWithin hlo (by omega) (by omega),
    num_copyWithin (by omega) (by omega) (by omega),heq,heq',childLink_eq]

end Shift

variable {sep : ℕ} {left right : Link}

theorem growInternal_eq : b.growInternal n i sep left right =
    nodeSetHeader (setChild (setChild (copyWithin
      (setSep (copyWithin b (8 + i * 8) (8 + n * 8 - (8 + i * 8)) (8 + i * 8 + 8)) i sep)
      (1632 + (i + 1) * 12) (1632 + (n + 1) * 12 - (1632 + (i + 1) * 12))
      (1632 + (i + 1) * 12 + 12))
      i left) (i + 1) right) nodeInternal (n + 1) := rfl

theorem shrinkInternal_eq : b.shrinkInternal n i =
    nodeSetHeader (copyWithin (copyWithin b (8 + (if i = n then i - 1 else i) * 8 + 8)
        (8 + n * 8 - (8 + (if i = n then i - 1 else i) * 8 + 8))
        (8 + (if i = n then i - 1 else i) * 8))
      (1632 + i * 12 + 12) (1632 + (n + 1) * 12 - (1632 + i * 12 + 12)) (1632 + i * 12))
      nodeInternal (n - 1) := rfl

variable (h : IsInternal b seps links)
include h

theorem IsInternal.grow (hi : i ≤ seps.length)
    (hfits : seps.length ≤ 202) (hsep : sep < 2 ^ 64) (hl : left.ptr < 2 ^ 64)
    (hr : right.ptr < 2 ^ 64) :
    IsInternal (b.growInternal seps.length i sep left right) (seps.insertIdx i sep)
      ((links.set i left).insertIdx (i + 1) right) where
  kind := by rw [growInternal_eq,nodeType_setHeader]
  count := by
    rw [growInternal_eq,nodeCount_setHeader (by omega),length_insertIdx_of_le_length hi]
  length := by
    have hlen := h.length
    rw [length_insertIdx_of_le_length (by rw [length_set]; omega),length_set,
      length_insertIdx_of_le_length hi,hlen]
  fits := by
    rw [length_insertIdx_of_le_length hi]
    omega
  sep j hj := by
    rw [length_insertIdx_of_le_length hi] at hj
    rw [growInternal_eq,sepKey_setHeader,sepKey_setChild (by omega),sepKey_setChild (by omega),
      sepKey_copyWithin_of_disjoint (by omega)]
    rcases Nat.lt_trichotomy j i with hlt | rfl | hgt
    · rw [sepKey_setSep_of_ne hlt.ne',sepKey_copyWithin_of_disjoint (by omega),
        getElem_insertIdx_of_lt hlt,h.sep]
    · rw [sepKey_setSep_self (by omega) hsep,getElem_insertIdx_self]
    · rw [sepKey_setSep_of_ne hgt.ne,getElem_insertIdx_of_gt hgt,← h.sep]
      exact sepKey_copyWithin (by omega) (by omega) (by omega) (by omega)
  link j hj := by
    have hlen := h.length
    rw [length_insertIdx_of_le_length (by rw [length_set]; omega),length_set] at hj
    rw [growInternal_eq,childLink_setHeader]
    rcases Nat.lt_trichotomy j (i + 1) with hlt | rfl | hgt
    · rw [childLink_setChild_of_ne hlt.ne',getElem_insertIdx_of_lt hlt,getElem_set]
      split
      · next heq =>
        subst heq
        exact childLink_setChild_self (by omega) hl
      · next hne =>
        rw [childLink_setChild_of_ne hne,childLink_copyWithin_of_disjoint (by omega),
          childLink_setSep (by omega),childLink_copyWithin_of_disjoint (by omega),h.link]
    · rw [childLink_setChild_self (by omega) hr,getElem_insertIdx_self]
    · rw [childLink_setChild_of_ne hgt.ne,childLink_setChild_of_ne (by omega),
        childLink_copyWithin (i := j - 1) (by omega) (by omega) (by omega) (by omega),
        childLink_setSep (by omega),childLink_copyWithin_of_disjoint (by omega),
        getElem_insertIdx_of_gt hgt,getElem_set_ne (by omega),h.link]

theorem IsInternal.shrink (hne : seps ≠ []) (hi : i ≤ seps.length) :
    IsInternal (b.shrinkInternal seps.length i)
      (seps.eraseIdx (if i = seps.length then i - 1 else i)) (links.eraseIdx i) := by
  have hlen := h.length
  have hfits := h.fits
  have hpos : 0 < seps.length := length_pos_of_ne_nil hne
  rw [shrinkInternal_eq]
  generalize hk : (if i = seps.length then i - 1 else i) = k
  have hklt : k < seps.length := by
    rw [← hk]
    split <;> omega
  have hslen : (seps.eraseIdx k).length = seps.length - 1 := length_eraseIdx_of_lt hklt
  have hllen : (links.eraseIdx i).length = seps.length := by
    rw [length_eraseIdx_of_lt (by omega)]
    omega
  refine ⟨nodeType_setHeader,?_,?_,?_,fun j hj => ?_,fun j hj => ?_⟩
  · rw [nodeCount_setHeader (by omega),hslen]
  · omega
  · omega
  · rw [sepKey_setHeader,sepKey_copyWithin_of_disjoint (by omega),getElem_eraseIdx]
    split
    · rw [sepKey_copyWithin_of_disjoint (by omega),h.sep]
    · rw [sepKey_copyWithin (i := j + 1) (by omega) (by omega) (by omega) (by omega),h.sep]
  rw [childLink_setHeader,getElem_eraseIdx]
  split
  · rw [childLink_copyWithin_of_disjoint (by omega),childLink_copyWithin_of_disjoint (by omega),
      h.link]
  · rw [childLink_copyWithin (i := j + 1) (by omega) (by omega) (by omega) (by omega),
      childLink_copyWithin_of_disjoint (by omega),h.link]

end Block

end LiberSystem
