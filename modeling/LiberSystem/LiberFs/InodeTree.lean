import LiberSystem.LiberFs.FixedLeaf

/-!
# The inode tree

`treeLookup`, `treeInsert` and `treeDelete` over records of `rec` bytes, at most
`leafMax` to a leaf, whose keys are the first `keylen` bytes. The inode tree has records
of an eight-byte number and an inode.
-/

namespace LiberSystem

open List

open Fallible FsM LiberFs

def inodeSize : ℕ := 256
def inodeRec : ℕ := 8 + inodeSize
def inodeLeafMax : ℕ := (blockSize - nodeHdr) / inodeRec
def inodeKeylen : ℕ := 8

namespace FsM

variable [Checksum] (root : Link) (key : ℕ) (probe : List UInt8)

def treeLookup (rec : ℕ) : FsM (Option (List UInt8)) := do
  if root.ptr = 0 then return none
  else do
    let _ ← tryZeroed
    descend (fun buf => match buf.leafSearch rec probe with
      | .ok pos => some (buf.leafRec rec pos)
      | .error _ => none) key treeDepthMax root

def treeLeafInsert (record : List UInt8) (rec leafMax keylen ptr : ℕ) (buf : Block) : FsM Ins := do
  check (buf.validateFixedLeaf rec keylen = none) .corrupt
  let count := buf.leafCount rec
  match buf.leafSearch rec (record.take keylen) with
  | .ok pos => do
    let dest ← nodeDest ptr
    return .updated (← writeNodeTo dest (buf.put (nodeHdr + pos * rec) record))
  | .error pos =>
    if count < leafMax then do
      let dest ← nodeDest ptr
      return .updated (← writeNodeTo dest (buf.leafInsertAt rec count pos record))
    else do
      let recs := ((List.range count).map (buf.leafRec rec)).insertIdx pos record
      let split := leafSplitPoint recs
      let leftDest ← nodeDest ptr
      let rightDest ← allocMeta
      let _ ← tryZeroed
      let lbuf := Block.newFixedLeaf rec (recs.take split)
      let _ ← tryZeroed
      let rbuf := Block.newFixedLeaf rec (recs.drop split)
      let llink ← writeNodeTo leftDest lbuf
      let rlink ← writeNodeTo rightDest rbuf
      return .split llink ((recs[split]?.map recKey).getD 0) rlink

def treeInsertNode (link : Link) (key : ℕ) (record : List UInt8) (rec leafMax keylen depth : ℕ) :
    FsM Ins :=
  insertNode (treeLeafInsert record rec leafMax keylen) key depth link

def treeInsert (record : List UInt8) (rec leafMax keylen : ℕ) : FsM Link := do
  if root.ptr = 0 then do
    let blk ← allocMeta
    let _ ← tryZeroed
    writeNodeTo blk (Block.newFixedLeaf rec [record])
  else do
    let outcome ← treeInsertNode root key record rec leafMax keylen treeDepthMax
    settleRoot outcome

def treeLeafDelete (rec keylen ptr : ℕ) (buf : Block) : FsM Del := do
  check (buf.validateFixedLeaf rec keylen = none) .corrupt
  let count := buf.leafCount rec
  match buf.leafSearch rec probe with
  | .error _ => return .notFound
  | .ok pos =>
    if count = 1 then do
      dropBlock ptr
      return .empty
    else do
      let dest ← nodeDest ptr
      return .updated (← writeNodeTo dest (buf.leafRemoveAt rec count pos))

def treeDeleteNode (link : Link) (key : ℕ) (probe : List UInt8) (rec keylen depth : ℕ) : FsM Del :=
  deleteNode (treeLeafDelete probe rec keylen) key depth link

def treeDelete (rec keylen : ℕ) : FsM (Link × Bool) := do
  if root.ptr = 0 then return (⟨0,0⟩, false)
  else do
    let outcome ← treeDeleteNode root key probe rec keylen treeDepthMax
    settleDel root outcome

end FsM

section Leaf

variable {rec leafMax : ℕ} {b : Block} {recs : List (List UInt8)} {r probe : List UInt8}

section

variable (h : IsFixedLeaf rec b recs) (hrec : 8 ≤ rec) (hasc : Ascending recKey recs)
  (hprobe : probe.length = 8)
include h hrec hasc hprobe

theorem found_leafSearch : Found recKey (recKey probe) recs (b.leafSearch rec probe) := by
  rw [Block.leafSearch,h.leafCount (by omega)]
  refine found_search hasc fun i hi => ?_
  have hwidth : recs[i].length = rec := h.width _ (getElem_mem hi)
  rw [hprobe,h.leafKey hrec hi,keyCmp_eq (by rw [length_take]; omega) hprobe,recKey,take_take]
  rfl

theorem treeLookup_leaf :
    (match b.leafSearch rec probe with
      | .ok pos => some (b.leafRec rec pos)
      | .error _ => none) = lookup recKey (recKey probe) recs := by
  have hspec := found_leafSearch h hrec hasc hprobe
  cases hsearch : b.leafSearch rec probe with
  | ok pos =>
    rw [hsearch] at hspec
    rw [← hspec.lookup_ok hasc,List.getElem?_eq_getElem hspec.1,← h.leafRec hspec.1]
  | error pos =>
    rw [hsearch] at hspec
    exact (lookup_eq_none.mpr hspec.ne).symm

end

theorem map_leafRec (h : IsFixedLeaf rec b recs) (hrec : 0 < rec) :
    (List.range (b.leafCount rec)).map (b.leafRec rec) = recs := by
  apply ext_getElem
  · rw [length_map,length_range,h.leafCount hrec]
  · intro i _ hi
    rw [getElem_map,getElem_range,h.leafRec hi]

theorem leafSplitPoint_eq (hasc : Ascending recKey recs) (hlen : 2 ≤ recs.length) :
    leafSplitPoint recs = recs.length / 2 := by
  have hlt : recs.length / 2 < recs.length := by omega
  have hnot : ¬sameKey (recs.map recKey) (recs.length / 2) := by
    rw [sameKey_map hlt]
    exact (pairwise_iff_getElem.mp hasc _ _ _ _ (by omega)).ne'
  have hup : splitUp (recs.map recKey) recs.length (recs.length / 2) = recs.length / 2 := by
    obtain ⟨n,hn⟩ : ∃ n, recs.length = n + 1 := ⟨recs.length - 1,by omega⟩
    conv_lhs => rw [show splitUp (recs.map recKey) recs.length = splitUp _ (n + 1) by rw [hn]]
    rw [splitUp,if_neg fun h => hnot h.2]
  rw [leafSplitPoint]
  simp only [hup,if_pos hlt]

variable [Checksum]

theorem treeLeafInserts (hrec : 8 ≤ rec) (hmax : 0 < leafMax)
    (hcap : nodeHdr + leafMax * rec ≤ blockSize) (hr : r.length = rec) :
    LeafInserts recKey id (IsFixedLeaf rec) r (treeLeafInsert r rec leafMax 8) := by
  intro m l recs lo hi hs ho hst hord hlo hhi _
  obtain ⟨-,htype,hleaf⟩ := hst
  have hleaf : IsFixedLeaf rec (m.fs.dev l.ptr) recs := hleaf
  have hasc : Ascending recKey recs := hord.2.1
  have hpos : 0 < rec := by omega
  have hprobe : (r.take 8).length = 8 := by
    rw [length_take]
    omega
  have hkey : recKey (r.take 8) = recKey r := by
    rw [recKey,take_take]
    rfl
  have hspec := found_leafSearch hleaf hrec hasc hprobe
  rw [hkey] at hspec
  simp only [treeLeafInsert,wp_bind,wp_check,hleaf.leafCount hpos]
  split
  · cases hsearch : (m.fs.dev l.ptr).leafSearch rec (r.take 8) with
    | ok pos =>
      rw [hsearch] at hspec
      obtain ⟨hp,heq⟩ := hspec
      have hcut := take_append_getElem_drop hp
      rw [append_assoc,singleton_append] at hcut
      have hpos' : (recs.take pos).length = pos := length_take_of_le hp.le
      have hset : IsFixedLeaf rec ((m.fs.dev l.ptr).put (nodeHdr + pos * rec) r)
          (upsert recKey r recs) := by
        have hset := IsFixedLeaf.set (hcut ▸ hleaf) hr
        rw [hpos'] at hset
        rwa [upsert_eq_set hasc hp heq,set_eq_take_append_cons_drop,if_pos hp]
      simp only [wp_bind,wp_pure]
      refine wp_rewrite hs ho fun l' m' hw => ⟨[.leaf l' (upsert recKey r recs)],?_⟩
      refine inserted_leaf hord hlo hhi hw ?_ hset
      rw [(Block.header_put (by exact Nat.le_add_right 8 _)).1,htype]
    | error pos =>
      rw [hsearch] at hspec
      obtain ⟨hp,hbelow,habove⟩ := hspec
      have hup := upsert_eq_insertIdx hp hbelow habove
      have hlen : (upsert recKey r recs).length = recs.length + 1 := by
        rw [hup,length_insertIdx_of_le_length hp]
      simp only [wp_ite,wp_bind,wp_pure]
      split
      · next hroom =>
        have hfits : nodeHdr + (recs.length + 1) * rec ≤ blockSize := by
          have : (recs.length + 1) * rec ≤ leafMax * rec := Nat.mul_le_mul_right _ hroom
          omega
        have hins : IsFixedLeaf rec ((m.fs.dev l.ptr).leafInsertAt rec recs.length pos r)
            (upsert recKey r recs) := by
          have hpos' : (recs.take pos).length = pos := length_take_of_le hp
          have hcut : IsFixedLeaf rec (m.fs.dev l.ptr) (recs.take pos ++ recs.drop pos) := by
            rwa [take_append_drop]
          have hins := hcut.insert hpos hr (by rwa [take_append_drop])
          rw [take_append_drop,hpos'] at hins
          rwa [hup,insertIdx_eq_append hp]
        refine wp_rewrite hs ho fun l' m' hw => ⟨[.leaf l' (upsert recKey r recs)],?_⟩
        exact inserted_leaf hord hlo hhi hw nodeType_leafInsertAt hins
      next hfull =>
      have hmap := map_leafRec hleaf hpos
      rw [hleaf.leafCount hpos] at hmap
      rw [hmap,← hup]
      set recs' := upsert recKey r recs with hrecs
      have hasc' : Ascending recKey recs' := hasc.upsert
      have hsplit : leafSplitPoint recs' = recs'.length / 2 := leafSplitPoint_eq hasc' (by omega)
      have hlt : recs'.length / 2 < recs'.length := by omega
      have hwidth : ∀ x ∈ recs', x.length = rec := fun x hx => by
        rcases mem_upsert.mp hx with rfl | ⟨hx,-⟩
        · exact hr
        · exact hleaf.width x hx
      have hhalf : ∀ half ⊆ recs', half.length ≤ recs.length →
          IsFixedLeaf rec (Block.newFixedLeaf rec half) half := fun half hsub hlen =>
        isFixedLeaf_newFixedLeaf hpos (fun x hx => hwidth x (hsub hx))
          ((Nat.add_le_add_left (Nat.mul_le_mul_right rec hlen) nodeHdr).trans hleaf.fits)
      have hleft := hhalf _ (take_subset (recs'.length / 2) _) (by rw [length_take]; omega)
      have hright := hhalf _ (drop_subset (recs'.length / 2) _) (by rw [length_drop]; omega)
      simp only [hsplit]
      refine wp_twoDests hs ho fun d d' m₁ htrade hfresh hfresh' => ?_
      refine wp_tryZeroed_of fun m₂ h₂ => ?_
      refine wp_tryZeroed_of fun m₃ h₃ => ?_
      rw [← h₂,← h₃] at htrade hfresh hfresh'
      refine wp_writeTwo htrade.sound htrade.owns hfresh hfresh' ?_
      intro l₁ l₂ m₄ hw hdev hcrc hdev' hcrc'
      refine ⟨[.leaf l₁ (recs'.take (recs'.length / 2)),
        .leaf l₂ (recs'.drop (recs'.length / 2))],?_⟩
      have hne : recKey recs'[recs'.length / 2 - 1] ≠ recKey recs'[recs'.length / 2] :=
        (pairwise_iff_getElem.mp hasc' _ _ _ _ (by omega)).ne
      rw [List.getElem?_eq_getElem hlt]
      have hrank : Monotone (id : ℕ → ℕ) := monotone_id
      exact inserted_leaves hrank hord hlo hhi hrecs (by omega) hlt hne (htrade.trans hw)
        (stored_leaf hdev hcrc nodeType_newFixedLeaf hleft)
        (stored_leaf hdev' hcrc' nodeType_newFixedLeaf hright)
  · trivial

theorem treeLeafDeletes (hrec : 8 ≤ rec) (hprobe : probe.length = 8) :
    LeafDeletes recKey id (IsFixedLeaf rec) (recKey probe) (treeLeafDelete probe rec 8) := by
  intro m l recs lo hi hs ho hst hord _ _ _
  obtain ⟨-,-,hleaf⟩ := hst
  have hleaf : IsFixedLeaf rec (m.fs.dev l.ptr) recs := hleaf
  have hasc : Ascending recKey recs := hord.2.1
  have hpos : 0 < rec := by omega
  have hspec := found_leafSearch hleaf hrec hasc hprobe
  simp only [treeLeafDelete,wp_bind,wp_check,hleaf.leafCount hpos]
  split
  · cases hsearch : (m.fs.dev l.ptr).leafSearch rec probe with
    | error pos =>
      rw [hsearch] at hspec
      exact ⟨rfl,hspec.ne⟩
    | ok pos =>
      rw [hsearch] at hspec
      obtain ⟨hp,hkey⟩ := hspec
      have hfound : ∃ x ∈ recs, recKey x = recKey probe := ⟨_,getElem_mem hp,hkey⟩
      have herase := without_eq_eraseIdx hasc hp hkey
      have hlen : (without recKey (recKey probe) recs).length = recs.length - 1 := by
        rw [herase,length_eraseIdx_of_lt hp]
      simp only [wp_ite,wp_bind,wp_pure]
      split
      · next hone =>
        refine deleted_last hfound ?_ (trades_dropBlock hs ho)
        exact eq_nil_of_length_eq_zero (by omega)
      next hone =>
      have hne : without recKey (recKey probe) recs ≠ [] := ne_nil_of_length_pos (by omega)
      have hremove : IsFixedLeaf rec ((m.fs.dev l.ptr).leafRemoveAt rec recs.length pos)
          (without recKey (recKey probe) recs) := by
        have hcut := take_append_getElem_drop hp
        rw [append_assoc,singleton_append] at hcut
        have hpos' : (recs.take pos).length = pos := length_take_of_le hp.le
        have hremove := IsFixedLeaf.remove (hcut ▸ hleaf) hpos
        rw [← hcut,hpos'] at hremove
        rwa [herase,eraseIdx_eq_take_drop_succ]
      refine wp_rewrite hs ho fun l' m' hw =>
        ⟨.leaf l' (without recKey (recKey probe) recs),rfl,?_⟩
      exact deleted_leaf hord hfound hne hw nodeType_leafRemoveAt hremove
  · trivial

end Leaf

section Root

variable [Checksum] {rec leafMax : ℕ} {root : Root (List UInt8)} {r probe : List UInt8}
  {m : Machine}

abbrev HoldsRecs (rec : ℕ) (fs : LiberFs) (root : Root (List UInt8)) : Prop :=
  root.Holds recKey id (IsFixedLeaf rec) fs

section

variable (h : HoldsRecs rec m.fs root) (hrec : 8 ≤ rec)
include h hrec

theorem treeLookup_spec (hprobe : probe.length = 8) (hcost : root.cost < 101 ^ 63) :
    wp (treeLookup root.link (recKey probe) probe rec) (fun res m' => m'.fs = m.fs ∧
      res = lookup recKey (recKey probe) root.records)
      (fun e _ => e = .err .noMemory ∧ m.heap 0 = false) m :=
  Root.lookupRoot_spec monotone_id (g := id) (q := recKey probe) rfl
    (fun _ _ hleaf hasc => treeLookup_leaf hleaf hrec hasc hprobe) h hcost (recKey_lt probe)

theorem treeInsert_spec (hmax : 0 < leafMax)
    (hcap : nodeHdr + leafMax * rec ≤ blockSize) (hr : r.length = rec) (hs : m.fs.Sound) :
    wp (treeInsert root.link (recKey r) r rec leafMax 8) (fun l m' => ∃ root',
      Root.Becomes recKey id (IsFixedLeaf rec) m.fs root m'.fs l (upsert recKey r root.records) 1
        root') (fun _ _ => True) m := by
  cases root with
  | empty =>
    have hfits : nodeHdr + [r].length * rec ≤ blockSize :=
      (Nat.add_le_add_left (Nat.mul_le_mul_right rec hmax) nodeHdr).trans hcap
    have hwidth : ∀ x ∈ [r], x.length = rec := fun x hx => by
      rw [mem_singleton.mp hx]
      exact hr
    rw [treeInsert,if_pos (show Root.empty.link.ptr = 0 from rfl)]
    simp only [wp_bind]
    exact Root.newLeaf_spec nodeType_newFixedLeaf
      (isFixedLeaf_newFixedLeaf (by omega) hwidth hfits) hs (recKey_lt r)
  | of t =>
    rw [treeInsert,if_neg h.ne_zero,treeInsertNode,wp_bind]
    exact Root.insertRoot_spec monotone_id (treeLeafInserts hrec hmax hcap hr) hs h (recKey_lt r)

theorem treeDelete_spec (hprobe : probe.length = 8) (hs : m.fs.Sound) :
    wp (treeDelete root.link (recKey probe) probe rec 8) (fun res m' =>
      (res.2 = true ↔ ∃ x ∈ root.records, recKey x = recKey probe) ∧ ∃ root',
      Root.Becomes recKey id (IsFixedLeaf rec) m.fs root m'.fs res.1
        (without recKey (recKey probe) root.records) 0 root') (fun _ _ => True) m :=
  Root.deleteRoot_spec monotone_id (treeLeafDeletes hrec hprobe) hs h (recKey_lt probe)

end

end Root

end LiberSystem
