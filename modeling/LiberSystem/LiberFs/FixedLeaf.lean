import LiberSystem.LiberFs.Leaf

/-!
# Leaves with records of one width

The leaves of the inode tree hold records of `rec` bytes in a row, ordered by the number in their
first eight bytes.
-/

namespace LiberSystem

open List Bytes LiberSystem.Block

open Fallible FsM

def keyCmp (a b : List UInt8) : Ordering :=
  match cmp (ofLe (a.take 8)) (ofLe (b.take 8)) with
  | .eq => cmp (a.drop 8) (b.drop 8)
  | other => other

def recKey (r : List UInt8) : ℕ := ofLe (r.take 8)

theorem recKey_lt (r : List UInt8) : recKey r < 2 ^ 64 := by
  refine (ofLe_lt _).trans_le ?_
  exact Nat.pow_le_pow_right (by decide) (length_take_le _ _)

theorem keyCmp_eq {a b : List UInt8} (ha : a.length = 8) (hb : b.length = 8) :
    keyCmp a b = cmp (recKey a) (recKey b) := by
  rw [keyCmp,recKey,recKey,drop_eq_nil_of_le ha.le,drop_eq_nil_of_le hb.le]
  cases h : cmp (ofLe (a.take 8)) (ofLe (b.take 8)) <;> rfl

namespace Block

variable (buf : Block)

def leafCount (rec : ℕ) : ℕ := min buf.nodeCount ((blockSize - nodeHdr) / rec)

def leafRec (rec i : ℕ) : List UInt8 := buf.slice (nodeHdr + i * rec) rec

def leafKey (rec keylen i : ℕ) : List UInt8 := buf.slice (nodeHdr + i * rec) keylen

def validateFixedLeaf (rec keylen : ℕ) : Option NodeFault :=
  if buf.nodeCount > (blockSize - nodeHdr) / rec then some .countAboveCapacity
  else if (List.range (buf.leafCount rec - 1)).any fun i =>
      keyCmp (buf.leafKey rec keylen i) (buf.leafKey rec keylen (i + 1)) ≠ .lt then
    some .outOfOrder
  else none

def leafSearch (rec : ℕ) (probe : List UInt8) : Except ℕ ℕ :=
  search (buf.leafCount rec) fun i => keyCmp (buf.leafKey rec probe.length i) probe

def leafInsertAt (rec count pos : ℕ) (record : List UInt8) : Block :=
  let start := nodeHdr + pos * rec
  let stop := nodeHdr + count * rec
  nodeSetHeader ((buf.copyWithin start (stop - start) (start + rec)).put start record)
    nodeLeaf (count + 1)

def leafRemoveAt (rec count pos : ℕ) : Block :=
  let start := nodeHdr + pos * rec
  let stop := nodeHdr + count * rec
  nodeSetHeader (buf.copyWithin (start + rec) (stop - (start + rec)) start) nodeLeaf (count - 1)

def setRecords (buf : Block) (rec i : ℕ) : List (List UInt8) → Block
  | [] => buf
  | r :: rs => setRecords (buf.put (nodeHdr + i * rec) r) rec (i + 1) rs

def newFixedLeaf (rec : ℕ) (recs : List (List UInt8)) : Block :=
  setRecords (nodeSetHeader Bytes.zeros nodeLeaf recs.length) rec 0 recs

end Block

/-- Where to split an overfull leaf: the midpoint, moved to a boundary between two keys. -/
def leafSplitPoint (recs : List (List UInt8)) : ℕ :=
  let keys := recs.map recKey
  let up := splitUp keys recs.length (recs.length / 2)
  if up < recs.length then up else splitDown keys (recs.length / 2)

structure IsFixedLeaf (rec : ℕ) (b : Block) (recs : List (List UInt8)) : Prop where
  count : b.nodeCount = recs.length
  fits : nodeHdr + recs.length * rec ≤ blockSize
  width : ∀ r ∈ recs, r.length = rec
  bytes : b.slice nodeHdr (recs.length * rec) = recs.flatten

section Rows

variable {rec i : ℕ} {b : Block} {recs xs ys : List (List UInt8)} {r : List UInt8}

theorem length_flatten_of_width (h : ∀ r ∈ recs, r.length = rec) :
    recs.flatten.length = recs.length * rec := by
  rw [length_flatten,map_congr_left h,map_const',sum_const_nat]

theorem IsFixedLeaf.of_parts (hcount : b.nodeCount = (xs ++ ys).length)
    (hfits : nodeHdr + (xs ++ ys).length * rec ≤ blockSize)
    (hwidth : ∀ r ∈ xs ++ ys, r.length = rec) (hxs : b.slice nodeHdr (xs.length * rec) = xs.flatten)
    (hys : b.slice (nodeHdr + xs.length * rec) (ys.length * rec) = ys.flatten) :
    IsFixedLeaf rec b (xs ++ ys) where
  count := hcount
  fits := hfits
  width := hwidth
  bytes := by
    rw [length_append,Nat.add_mul,slice_add,hxs,hys,flatten_append]

theorem IsFixedLeaf.parts (h : IsFixedLeaf rec b (xs ++ ys)) :
    b.slice nodeHdr (xs.length * rec) = xs.flatten ∧
      b.slice (nodeHdr + xs.length * rec) (ys.length * rec) = ys.flatten := by
  have hbytes := h.bytes
  rw [length_append,Nat.add_mul,slice_add,flatten_append] at hbytes
  refine append_inj hbytes ?_
  rw [length_slice,length_flatten_of_width fun r hr => h.width r (mem_append_left _ hr)]

variable (h : IsFixedLeaf rec b recs)
include h

theorem IsFixedLeaf.leafCount (hrec : 0 < rec) : b.leafCount rec = recs.length := by
  rw [Block.leafCount,h.count]
  refine min_eq_left ((Nat.le_div_iff_mul_le hrec).mpr ?_)
  have := h.fits
  omega

theorem IsFixedLeaf.leafRec (hi : i < recs.length) : b.leafRec rec i = recs[i] := by
  have hcut := take_append_drop i recs
  rw [drop_eq_getElem_cons hi] at hcut
  rw [← hcut] at h
  have hpart := h.parts.2
  rw [length_take,Nat.min_eq_left hi.le,length_cons,Nat.succ_mul,Nat.add_comm (_ * rec),slice_add,
    flatten_cons] at hpart
  exact (append_inj hpart (by rw [length_slice,h.width _ (by simp)])).1

theorem IsFixedLeaf.leafKey (hrec : 8 ≤ rec) (hi : i < recs.length) :
    b.leafKey rec 8 i = recs[i].take 8 := by
  have hslice : b.leafRec rec i = recs[i] := h.leafRec hi
  rw [← hslice,Block.leafRec,Block.leafKey,← Nat.add_zero (nodeHdr + i * rec),
    ← take_drop_slice (by omega),drop_zero,Nat.add_zero]

end Rows

namespace Block

variable {rec i n o len : ℕ} {b : Block} {recs : List (List UInt8)} {r : List UInt8}

theorem slice_setHeader {typ : UInt8} {count : ℕ} (h : 8 ≤ o) :
    (b.nodeSetHeader typ count).slice o len = b.slice o len := by
  rw [nodeSetHeader,putNum,slice_put_of_disjoint,slice_put_of_disjoint,slice_put_of_disjoint]
  · simp only [length_replicate,nodeHdr]
    omega
  · simp only [length_singleton]
    omega
  · simp only [length_toLe]
    omega

theorem setsInARow_setRecords :
    SetsInARow (fun b i r => put b (nodeHdr + i * rec) r) fun b i => setRecords b rec i :=
  ⟨fun _ _ => rfl,fun _ _ _ _ => rfl⟩

theorem header_setRecords : (b.setRecords rec i recs).nodeType = b.nodeType ∧
    (b.setRecords rec i recs).nodeCount = b.nodeCount :=
  ⟨setsInARow_setRecords.keeps fun _ _ _ _ => (header_put (Nat.le_add_right 8 _)).1,
    setsInARow_setRecords.keeps fun _ _ _ _ => (header_put (Nat.le_add_right 8 _)).2⟩

theorem slice_setRecords_of_le (h : o + len ≤ nodeHdr + i * rec) :
    (b.setRecords rec i recs).slice o len = b.slice o len :=
  setsInARow_setRecords.keeps (r := (slice · o len)) fun _ _ _ hk =>
    slice_put_of_disjoint (.inl (h.trans (Nat.add_le_add_left (Nat.mul_le_mul_right _ hk) _)))

theorem slice_setRecords (hwidth : ∀ r ∈ recs, r.length = rec)
    (hfits : nodeHdr + (i + recs.length) * rec ≤ blockSize) :
    (b.setRecords rec i recs).slice (nodeHdr + i * rec) (recs.length * rec) = recs.flatten := by
  induction recs generalizing b i with
  | nil =>
    rw [length_nil,Nat.zero_mul]
    rfl
  | cons r rs ih =>
    have hr : r.length = rec := hwidth r mem_cons_self
    have hnext : (i + 1) * rec = i * rec + rec := Nat.succ_mul i rec
    have hlen : (rs.length + 1) * rec = rec + rs.length * rec := by
      rw [Nat.succ_mul,Nat.add_comm]
    have hall : (i + (r :: rs).length) * rec = i * rec + (rec + rs.length * rec) := by
      rw [length_cons,Nat.add_mul,hlen]
    have hrest : (i + 1 + rs.length) * rec = i * rec + (rec + rs.length * rec) := by
      rw [Nat.add_mul,hnext]
      omega
    rw [setRecords,length_cons,hlen,slice_add,flatten_cons]
    congr 1
    · rw [slice_setRecords_of_le (by omega),slice_put_eq hr (by omega)]
    · have := ih (b := b.put (nodeHdr + i * rec) r) (i := i + 1)
        (fun r hr => hwidth r (mem_cons_of_mem _ hr)) (by omega)
      rwa [hnext,← Nat.add_assoc] at this

end Block

section Edits

variable {rec : ℕ} {b : Block} {recs xs ys : List (List UInt8)} {r : List UInt8}

theorem fits_lt (hrec : 0 < rec) {n : ℕ} (h : nodeHdr + n * rec ≤ blockSize) : n < 2 ^ 16 := by
  have hle : n * 1 ≤ n * rec := Nat.mul_le_mul_left n hrec
  have : blockSize = 4096 := rfl
  omega

theorem isFixedLeaf_newFixedLeaf (hrec : 0 < rec) (hwidth : ∀ r ∈ recs, r.length = rec)
    (hfits : nodeHdr + recs.length * rec ≤ blockSize) :
    IsFixedLeaf rec (newFixedLeaf rec recs) recs where
  count := by
    rw [newFixedLeaf,header_setRecords.2,nodeCount_setHeader (fits_lt hrec hfits)]
  fits := hfits
  width := hwidth
  bytes := by
    have hslice := slice_setRecords
      (b := nodeSetHeader zeros nodeLeaf recs.length) hwidth (by rwa [Nat.zero_add])
    rwa [Nat.zero_mul,Nat.add_zero] at hslice

theorem nodeType_newFixedLeaf : (newFixedLeaf rec recs).nodeType = nodeLeaf := by
  rw [newFixedLeaf,header_setRecords.1,nodeType_setHeader]

variable {x : List UInt8}

theorem length_row : (xs ++ x :: ys).length * rec = xs.length * rec + (rec + ys.length * rec) := by
  rw [length_append,length_cons,Nat.add_mul,Nat.succ_mul,Nat.add_comm (_ * rec) rec]

theorem IsFixedLeaf.of_row (hcount : b.nodeCount = (xs ++ r :: ys).length)
    (hfits : nodeHdr + (xs ++ r :: ys).length * rec ≤ blockSize)
    (hwidth : ∀ s ∈ xs ++ r :: ys, s.length = rec)
    (hxs : b.slice nodeHdr (xs.length * rec) = xs.flatten)
    (hr : b.slice (nodeHdr + xs.length * rec) rec = r)
    (hys : b.slice (nodeHdr + xs.length * rec + rec) (ys.length * rec) = ys.flatten) :
    IsFixedLeaf rec b (xs ++ r :: ys) := by
  refine .of_parts hcount hfits hwidth hxs ?_
  rw [length_cons,Nat.succ_mul,Nat.add_comm (_ * rec),slice_add,hr,hys,flatten_cons]

theorem IsFixedLeaf.row (h : IsFixedLeaf rec b (xs ++ x :: ys)) :
    b.slice nodeHdr (xs.length * rec) = xs.flatten ∧
      b.slice (nodeHdr + xs.length * rec + rec) (ys.length * rec) = ys.flatten := by
  obtain ⟨hxs,hys⟩ := h.parts
  refine ⟨hxs,?_⟩
  rw [length_cons,Nat.succ_mul,Nat.add_comm (_ * rec),slice_add,flatten_cons] at hys
  exact (append_inj hys (by rw [length_slice,h.width _ (by simp)])).2

theorem width_row (h : ∀ s ∈ xs ++ ys, s.length = rec) (hr : r.length = rec) :
    ∀ s ∈ xs ++ r :: ys, s.length = rec := by
  obtain ⟨hxs,hys⟩ := forall_mem_append.mp h
  exact forall_mem_append.mpr ⟨hxs,forall_mem_cons.mpr ⟨hr,hys⟩⟩

theorem width_without (h : ∀ s ∈ xs ++ x :: ys, s.length = rec) :
    ∀ s ∈ xs ++ ys, s.length = rec := by
  obtain ⟨hxs,hys⟩ := forall_mem_append.mp h
  exact forall_mem_append.mpr ⟨hxs,(forall_mem_cons.mp hys).2⟩

theorem IsFixedLeaf.set (h : IsFixedLeaf rec b (xs ++ x :: ys)) (hr : r.length = rec) :
    IsFixedLeaf rec (b.put (nodeHdr + xs.length * rec) r) (xs ++ r :: ys) := by
  obtain ⟨hxs,hys⟩ := h.row
  have hfits := h.fits
  rw [length_row] at hfits
  have hoff : 8 ≤ nodeHdr + xs.length * rec := Nat.le_add_right 8 _
  refine .of_row ?_ (by rwa [length_row]) (width_row (width_without h.width) hr) ?_ ?_ ?_
  · rw [(header_put hoff).2,h.count,length_append,length_append,length_cons,length_cons]
  · rw [slice_put_of_disjoint (.inl le_rfl),hxs]
  · exact slice_put_eq hr (by omega)
  · rw [slice_put_of_disjoint (.inr (by omega)),hys]

theorem IsFixedLeaf.insert (h : IsFixedLeaf rec b (xs ++ ys)) (hrec : 0 < rec) (hr : r.length = rec)
    (hfits : nodeHdr + ((xs ++ ys).length + 1) * rec ≤ blockSize) :
    IsFixedLeaf rec (b.leafInsertAt rec (xs ++ ys).length xs.length r) (xs ++ r :: ys) := by
  obtain ⟨hxs,hys⟩ := h.parts
  have hlen : (xs ++ r :: ys).length = (xs ++ ys).length + 1 := by
    rw [length_append,length_cons,length_append,Nat.add_assoc]
  have hlt : (xs ++ ys).length + 1 < 2 ^ 16 := fits_lt hrec hfits
  have hfits' : nodeHdr + (xs.length * rec + (rec + ys.length * rec)) ≤ blockSize := by
    rw [← length_row,hlen]
    exact hfits
  have hmove :
      nodeHdr + (xs ++ ys).length * rec - (nodeHdr + xs.length * rec) = ys.length * rec := by
    rw [length_append,Nat.add_mul]
    omega
  have hoff : 8 ≤ nodeHdr + xs.length * rec := Nat.le_add_right 8 _
  rw [leafInsertAt]
  simp only [hmove]
  refine .of_row ?_ (by rwa [hlen]) (width_row h.width hr) ?_ ?_ ?_
  · rw [nodeCount_setHeader hlt,hlen]
  · rw [slice_setHeader (by exact le_rfl),slice_put_of_disjoint (.inl le_rfl),copyWithin,
      slice_put_of_disjoint (.inl (by omega)),hxs]
  · rw [slice_setHeader hoff,slice_put_eq hr (by omega)]
  · rw [slice_setHeader (by simp only [nodeHdr]; omega),
      slice_put_of_disjoint (.inr (by omega)),slice_copyWithin_self (by omega),hys]

theorem IsFixedLeaf.remove (h : IsFixedLeaf rec b (xs ++ x :: ys)) (hrec : 0 < rec) :
    IsFixedLeaf rec (b.leafRemoveAt rec (xs ++ x :: ys).length xs.length) (xs ++ ys) := by
  obtain ⟨hxs,hys⟩ := h.row
  have hfits := h.fits
  have hlt := fits_lt hrec hfits
  have hlen : (xs ++ x :: ys).length - 1 = (xs ++ ys).length := by
    rw [length_append,length_cons,length_append]
    omega
  rw [length_row] at hfits
  have hmove : nodeHdr + (xs ++ x :: ys).length * rec - (nodeHdr + xs.length * rec + rec) =
      ys.length * rec := by
    rw [length_row]
    omega
  have hoff : 8 ≤ nodeHdr + xs.length * rec := Nat.le_add_right 8 _
  rw [leafRemoveAt]
  simp only [hmove]
  refine .of_parts ?_ ?_ (width_without h.width) ?_ ?_
  · rw [hlen,nodeCount_setHeader (by omega)]
  · rw [length_append,Nat.add_mul]
    omega
  · rw [slice_setHeader (by exact le_rfl),copyWithin,slice_put_of_disjoint (.inl le_rfl),hxs]
  · rw [slice_setHeader hoff,slice_copyWithin_self (by omega),hys]

theorem nodeType_leafInsertAt {count pos : ℕ} :
    (b.leafInsertAt rec count pos r).nodeType = nodeLeaf := nodeType_setHeader

theorem nodeType_leafRemoveAt {count pos : ℕ} :
    (b.leafRemoveAt rec count pos).nodeType = nodeLeaf := nodeType_setHeader

end Edits

end LiberSystem
