import Mathlib.Data.Prod.Lex
import LiberSystem.LiberFs.Leaf

/-!
# Directory leaves

Records of variable length back to back, ordered by hash and then by name. A leaf is split only
between two hashes, since internal nodes route by the hash alone.
-/

namespace LiberSystem

open List Bytes LiberSystem.Block

open Fallible FsM

def nameMax : ℕ := 255
def dirRecHdr : ℕ := 13

abbrev Name := List UInt8

variable (name : Name)

def nameHash : ℕ :=
  name.foldl (fun h b => (h ^^^ b.toNat) * 0x100000001b3 % 2 ^ 64) 0xcbf29ce484222325

theorem nameHash_lt : nameHash name < 2 ^ 64 := by
  have hfold : ∀ (name : Name) (h : ℕ), h < 2 ^ 64 →
      name.foldl (fun h b => (h ^^^ b.toNat) * 0x100000001b3 % 2 ^ 64) h < 2 ^ 64 := by
    intro name
    induction name with
    | nil => exact fun h hh => hh
    | cons b name ih => exact fun h _ => ih _ (Nat.mod_lt _ (by decide))
  exact hfold name _ (by decide)

def isCont (b : UInt8) : Bool := 0x80 ≤ b && b ≤ 0xBF

def isUtf8 : List UInt8 → Bool
  | [] => true
  | a :: l =>
    if a < 0x80 then isUtf8 l
    else
      match l with
      | [] => false
      | b :: l =>
        if 0xC2 ≤ a && a ≤ 0xDF then isCont b && isUtf8 l
        else
          match l with
          | [] => false
          | c :: l =>
            if 0xE0 ≤ a && a ≤ 0xEF then
              isCont b && isCont c && (a != 0xE0 || 0xA0 ≤ b) && (a != 0xED || b ≤ 0x9F) && isUtf8 l
            else
              match l with
              | [] => false
              | d :: l =>
                0xF0 ≤ a && a ≤ 0xF4 && isCont b && isCont c && isCont d &&
                  (a != 0xF0 || 0x90 ≤ b) && (a != 0xF4 || b ≤ 0x8F) && isUtf8 l

def isPortableNameByte (c : UInt8) : Bool :=
  !(c < 0x20 || c == 0x7F) &&
    !([0x5C,0x3A,0x2A,0x3F,0x3C,0x3E,0x7C,0x22] : List UInt8).contains c

def validateNameSegment (seg : Name) (max : ℕ) : Option FsError :=
  if seg = [] ∨ seg = [0x2E] ∨ seg = [0x2E,0x2E] then some .badName
  else if seg.length > max then some .tooLong
  else if isUtf8 seg = false then some .badName
  else if seg.any fun c => c == 0x2F || !isPortableNameByte c then some .badName
  else none

structure DirRec where
  hash : ℕ
  name : Name
  child : UInt32
  deriving DecidableEq

namespace DirRec

def key (r : DirRec) : ℕ ×ₗ Name := toLex (r.hash, r.name)

def compareTo (r : DirRec) (hash : ℕ) (name : Name) : Ordering :=
  match cmp r.hash hash with
  | .eq => cmp r.name name
  | other => other

end DirRec

def nameKey : ℕ ×ₗ Name := toLex (nameHash name, name)

def hashOf (k : ℕ ×ₗ Name) : ℕ := (ofLex k).1

theorem hashOf_mono : Monotone hashOf := fun a b h => by
  rcases (Prod.Lex.le_iff).mp h with h | h
  · exact h.le
  · exact h.1.le

def Block.dirLeafParseFrom (buf : Block) : ℕ → ℕ → List DirRec
  | 0, _ => []
  | n + 1, off =>
    if off + dirRecHdr > blockSize then []
    else
      let len := (buf.get (off + 12)).toNat
      if off + dirRecHdr + len > blockSize then []
      else
        ⟨buf.num 8 off,buf.slice (off + dirRecHdr) len,UInt32.ofNat (buf.num 4 (off + 8))⟩ ::
          buf.dirLeafParseFrom n (off + dirRecHdr + len)

def Block.dirLeafParse (buf : Block) : List DirRec :=
  buf.dirLeafParseFrom (min buf.nodeCount ((blockSize - nodeHdr) / dirRecHdr)) nodeHdr

variable (recs : List DirRec)

def dirLeafSize : ℕ :=
  nodeHdr + (recs.map fun r => dirRecHdr + r.name.length).sum

def Block.putRecs (buf : Block) (off : ℕ) : List DirRec → Block
  | [] => buf
  | r :: rs =>
    Block.putRecs ((((buf.putNum 8 off r.hash).putNum 4 (off + 8) r.child.toNat).put (off + 12)
      [UInt8.ofNat r.name.length]).put (off + dirRecHdr) r.name)
      (off + dirRecHdr + r.name.length) rs

def dirLeafBlock : Block :=
  Block.putRecs (Block.nodeSetHeader Bytes.zeros nodeLeaf recs.length) nodeHdr recs

/-- `dir_leaf_write`: records that do not fit run past the end of the block. -/
def FsM.dirLeafWrite : FsM Block :=
  if dirLeafSize recs ≤ blockSize then return dirLeafBlock recs else throw .panic

def validateDirRecs (last : Option (ℕ ×ₗ Name)) : List DirRec → Option NodeFault
  | [] => none
  | r :: rs =>
    if nameHash r.name ≠ r.hash then some .storedHashMismatch
    else if validateNameSegment r.name nameMax ≠ none then some .nameNotAddressable
    else if last.any fun k => r.key ≤ k then some .outOfOrder
    else validateDirRecs (some r.key) rs

def Block.validateDirLeaf (buf : Block) (recs : List DirRec) : Option NodeFault :=
  if recs.length ≠ buf.nodeCount then some (.truncated recs.length buf.nodeCount)
  else validateDirRecs none recs

def dirRecsSearch (hash : ℕ) (name : Name) : Except ℕ ℕ :=
  search recs.length fun i => (recs[i]?.map fun r => r.compareTo hash name).getD .gt

/-- The record index nearest the byte midpoint; `mid` if no record reaches it. -/
def dirMidFrom (total n mid : ℕ) : List DirRec → ℕ → ℕ → ℕ
  | [], _, _ => mid
  | r :: rs, i, acc =>
    if (acc + (dirRecHdr + r.name.length)) * 2 ≥ total then min (i + 1) (n - 1)
    else dirMidFrom total n mid rs (i + 1) (acc + (dirRecHdr + r.name.length))

def dirSplitPoint : Option ℕ :=
  let mid := dirMidFrom (dirLeafSize recs - nodeHdr) recs.length (recs.length / 2) recs 0 0
  let hashes := recs.map DirRec.hash
  let up := splitUp hashes recs.length (max mid 1)
  if up < recs.length then some up
  else
    let down := splitDown hashes mid
    if down ≥ 1 ∧ ¬sameKey hashes down then some down else none

variable {recs : List DirRec} {off n i : ℕ} {buf : Block}

theorem Block.get_putRecs_of_lt (h : i < off) : (buf.putRecs off recs).get i = buf.get i := by
  induction recs generalizing buf off with
  | nil => rfl
  | cons r rs ih =>
    rw [putRecs,ih (by omega),get_put_of_disjoint (by simp only [dirRecHdr]; omega),
      get_put_of_disjoint (by omega),putNum,get_put_of_disjoint (by omega),putNum,
      get_put_of_disjoint (by omega)]

theorem Block.slice_putRecs_of_le {o len : ℕ} (h : o + len ≤ off) :
    (buf.putRecs off recs).slice o len = buf.slice o len :=
  slice_congr fun _ _ => get_putRecs_of_lt (by omega)

/-- A record that fits its fields. -/
structure DirRec.Fits (r : DirRec) : Prop where
  hash : r.hash < 2 ^ 64
  name : r.name.length ≤ nameMax

theorem Block.parse_putRecs (hfits : ∀ r ∈ recs, r.Fits)
    (hsize : off + (recs.map fun r => dirRecHdr + r.name.length).sum ≤ blockSize) :
    (buf.putRecs off recs).dirLeafParseFrom recs.length off = recs := by
  induction recs generalizing buf off with
  | nil => rfl
  | cons r rs ih =>
    obtain ⟨hhash,hname⟩ := hfits r mem_cons_self
    simp only [map_cons,sum_cons,dirRecHdr] at hsize
    simp only [nameMax] at hname
    have hhdr : dirRecHdr = 13 := rfl
    set b₁ := buf.putNum 8 off r.hash with hb₁
    set b₂ := b₁.putNum 4 (off + 8) r.child.toNat with hb₂
    set b₃ := b₂.put (off + 12) [UInt8.ofNat r.name.length] with hb₃
    set b₄ : Block := b₃.put (off + dirRecHdr) r.name with hb₄
    have hput : buf.putRecs off (r :: rs) = b₄.putRecs (off + 13 + r.name.length) rs := rfl
    have hlen : ((buf.putRecs off (r :: rs)).get (off + 12)).toNat = r.name.length := by
      rw [hput,get_putRecs_of_lt (by omega),hb₄,
        get_put_of_disjoint (by simp only [dirRecHdr]; omega),hb₃,get_put,
        if_pos (by simp only [length_singleton]; omega),Nat.sub_self,getD_cons_zero,
        UInt8.toNat_ofNat']
      omega
    have hnum : ∀ w o, o + w ≤ off + 12 →
        (buf.putRecs off (r :: rs)).num w o = b₂.num w o := fun w o ho => by
      rw [hput,num,slice_putRecs_of_le (by omega),hb₄,
        slice_put_of_disjoint (by simp only [dirRecHdr]; omega),hb₃,
        slice_put_of_disjoint (by omega),num]
    have hchild : (buf.putRecs off (r :: rs)).num 4 (off + 8) = r.child.toNat := by
      rw [hnum _ _ (by omega)]
      exact num_putNum_self r.child.toNat_lt (by omega)
    have hhash' : (buf.putRecs off (r :: rs)).num 8 off = r.hash := by
      rw [hnum _ _ (by omega),hb₂,num_putNum_of_disjoint (by omega)]
      exact num_putNum_self (by simpa using hhash) (by omega)
    have hslice : (buf.putRecs off (r :: rs)).slice (off + 13) r.name.length = r.name := by
      rw [hput,slice_putRecs_of_le le_rfl]
      exact slice_put_self (by omega)
    have hrest : (buf.putRecs off (r :: rs)).dirLeafParseFrom rs.length (off + 13 + r.name.length) =
        rs := by
      refine ih (fun r hr => hfits r (mem_cons_of_mem _ hr)) ?_
      simp only [dirRecHdr]
      omega
    rw [length_cons,dirLeafParseFrom]
    simp only [dirRecHdr,hlen,hhash',hchild,hslice,hrest,UInt32.ofNat_toNat]
    rw [if_neg (by omega),if_neg (by omega)]

theorem length_le_of_size (h : dirLeafSize recs ≤ blockSize) : recs.length ≤ 314 := by
  have hle : recs.length * 13 ≤ (recs.map fun r => dirRecHdr + r.name.length).sum := by
    clear h
    induction recs with
    | nil => exact Nat.zero_le _
    | cons r rs ih =>
      rw [length_cons,map_cons,sum_cons,dirRecHdr]
      simp only [dirRecHdr] at ih
      omega
  have hsize : 8 + (recs.map fun r => dirRecHdr + r.name.length).sum ≤ 4096 := h
  omega

theorem header_dirLeafBlock : (dirLeafBlock recs).nodeType = nodeLeaf ∧
    (dirLeafBlock recs).nodeCount = (nodeSetHeader zeros nodeLeaf recs.length).nodeCount := by
  have hkeep : ∀ i < 8, (dirLeafBlock recs).get i =
      (nodeSetHeader zeros nodeLeaf recs.length).get i :=
    fun i hi => get_putRecs_of_lt hi
  obtain ⟨htype,hcount⟩ := header_congr hkeep
  exact ⟨htype.trans nodeType_setHeader,hcount⟩

theorem dirLeafParse_dirLeafBlock (hsize : dirLeafSize recs ≤ blockSize)
    (hfits : ∀ r ∈ recs, r.Fits) : (dirLeafBlock recs).dirLeafParse = recs := by
  have hlen := length_le_of_size hsize
  have hcount : (dirLeafBlock recs).nodeCount = recs.length := by
    rw [header_dirLeafBlock.2,nodeCount_setHeader (by omega)]
  rw [dirLeafParse,hcount,min_eq_left (by exact hlen)]
  exact parse_putRecs hfits hsize

variable {r : DirRec}

theorem fits_of_mem_parseFrom (h : r ∈ buf.dirLeafParseFrom n off) : r.Fits := by
  induction n generalizing off with
  | zero => cases h
  | succ n ih =>
    simp only [dirLeafParseFrom] at h
    split at h
    · cases h
    split at h
    · cases h
    rcases mem_cons.mp h with rfl | h
    · refine ⟨?_,?_⟩
      · exact (num_lt 8).trans_eq (by norm_num)
      · have := (buf.get (off + 12)).toNat_lt
        simp only [length_slice,nameMax]
        omega
    · exact ih h

theorem fits_of_mem_parse (h : r ∈ buf.dirLeafParse) : r.Fits := fits_of_mem_parseFrom h

end LiberSystem
