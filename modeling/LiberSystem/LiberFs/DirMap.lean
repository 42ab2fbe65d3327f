import Mathlib.Data.Finset.Card
import LiberSystem.LiberFs.DirTree

/-!
# A directory tree as a map

What a lookup, a listing, an insertion and a deletion do to the records of a whole
directory tree. The listing is a walk with an explicit stack; it is related to the
trees that the links on the stack stand for.
-/

namespace LiberSystem

open List DirRec

open Fallible FsM LiberFs

variable {name : Name} {child : UInt32} {recs : List DirRec} {m : Machine} {k : ℕ}
  {root : Root DirRec}

theorem dirLookup_leaf (h : Ascending DirRec.key recs) :
    (match dirRecsSearch recs (nameHash name) name with
      | .ok pos => recs[pos]?.map DirRec.child
      | .error _ => none) = (lookup DirRec.key (nameKey name) recs).map DirRec.child := by
  have hspec := found_dirRecsSearch name h
  cases hsearch : dirRecsSearch recs (nameHash name) name with
  | ok pos =>
    rw [hsearch] at hspec
    simp only [hspec.lookup_ok h]
  | error pos =>
    rw [hsearch] at hspec
    simp only [lookup_eq_none.mpr hspec.ne,Option.map_none]

variable [Checksum]

abbrev HoldsDir (fs : LiberFs) (root : Root DirRec) : Prop :=
  root.Holds DirRec.key hashOf IsDirLeaf fs

theorem dirTreeLookup_spec (h : HoldsDir m.fs root) (hcost : root.cost < 101 ^ 63) :
    wp (dirTreeLookup root.link name) (fun res m' => m'.fs = m.fs ∧
      res = (lookup DirRec.key (nameKey name) root.records).map DirRec.child)
      (fun e _ => e = .err .noMemory ∧ m.heap 0 = false) m :=
  Root.lookupRoot_spec hashOf_mono (g := Option.map child) (q := nameKey name) rfl
    (fun b recs hleaf hasc => by
      have hparse : b.dirLeafParse = recs := hleaf
      subst hparse
      exact dirLookup_leaf hasc) h hcost (nameHash_lt name)

theorem dirTreeInsert_spec (hname : name.length ≤ nameMax) (hs : m.fs.Sound)
    (h : HoldsDir m.fs root) :
    wp (dirTreeInsert root.link name child) (fun l m' => ∃ root',
      Root.Becomes key hashOf IsDirLeaf m.fs root m'.fs l
        (upsert key ⟨nameHash name,name,child⟩ root.records) 1 root')
      (fun _ _ => True) m := by
  cases root with
  | empty =>
    have hsize : dirLeafSize [⟨nameHash name,name,child⟩] ≤ blockSize := by
      simp only [dirLeafSize,map_singleton,sum_singleton,nodeHdr,dirRecHdr,blockSize,
        nameMax] at hname ⊢
      omega
    have hfits : ∀ r ∈ [mk (nameHash name) name child], r.Fits := fun r hr => by
      rw [mem_singleton.mp hr]
      exact ⟨nameHash_lt name,hname⟩
    rw [dirTreeInsert,if_pos (show Root.empty.link.ptr = 0 from rfl)]
    simp only [wp_bind,wp_dirLeafWrite,if_pos hsize]
    exact Root.newLeaf_spec header_dirLeafBlock.1 (isDirLeaf_dirLeafBlock hsize hfits) hs
      (nameHash_lt name)
  | of t =>
    rw [dirTreeInsert,if_neg h.ne_zero,dirInsertNode,wp_bind]
    exact Root.insertRoot_spec hashOf_mono (dirLeafInserts hname) hs h (nameHash_lt name)

theorem dirTreeDelete_spec (hs : m.fs.Sound) (h : HoldsDir m.fs root) :
    wp (dirTreeDelete root.link name) (fun res m' =>
      (res.2 = true ↔ ∃ x ∈ root.records, x.key = nameKey name) ∧ ∃ root',
      Root.Becomes key hashOf IsDirLeaf m.fs root m'.fs res.1
        (without key (nameKey name) root.records) 0 root') (fun _ _ => True) m :=
  Root.deleteRoot_spec hashOf_mono dirLeafDeletes hs h (nameHash_lt name)

def DirRec.entry (r : DirRec) : Name × UInt32 := (r.name, r.child)

/-- A tree on the stack of the listing with the levels left for it. -/
structure Pending where
  height : ℕ
  tree : Tree Link DirRec height
  left : ℕ

namespace Pending

def blocks (p : Pending) : Multiset ℕ := LiberFs.blocks p.tree

def entries (p : Pending) : List (Name × UInt32) := p.tree.records.map DirRec.entry

end Pending

/-- What the loop of the listing relies on: the pending trees are stored in blocks of
their own that were not visited, with levels and turns enough for all of them. -/
structure Listable (fs : LiberFs) (fuel : ℕ) (visited : Finset ℕ) (stack : List Pending) :
    Prop where
  owns : Owns fs (stack.map Pending.blocks).sum
  stored : ∀ p ∈ stack, Stored IsDirLeaf fs p.tree
  deep : ∀ p ∈ stack, p.height < p.left
  fresh : ∀ b ∈ (stack.map Pending.blocks).sum, b ∉ visited
  fuel : (stack.map Pending.blocks).sum.card ≤ fuel

variable {visited : Finset ℕ} {fs : LiberFs} {fuel : ℕ}

theorem Listable.next {b : ℕ} {p : Pending}
    {below rest : List Pending} (h : Listable fs (fuel + 1) visited (p :: rest))
    (hblocks : p.blocks = {b} + (below.map Pending.blocks).sum)
    (hstored : ∀ q ∈ below, Stored IsDirLeaf fs q.tree) (hdeep : ∀ q ∈ below, q.height < q.left) :
    Listable fs fuel (insert b visited) (below ++ rest) := by
  have hsum : ((p :: rest).map Pending.blocks).sum =
      {b} + ((below ++ rest).map Pending.blocks).sum := by
    rw [map_cons,sum_cons,hblocks,map_append,sum_append,add_assoc]
  obtain ⟨ho,hst,hd,hfresh,hfuel⟩ := h
  rw [hsum] at ho hfresh hfuel
  have hnot : b ∉ ((below ++ rest).map Pending.blocks).sum := by
    have hdis := (Multiset.nodup_add.mp ho.nodup).2.2
    exact Multiset.disjoint_left.mp hdis (Multiset.mem_singleton_self b)
  refine ⟨ho.mono (Multiset.le_add_left _ _),
    forall_mem_append.mpr ⟨hstored,(forall_mem_cons.mp hst).2⟩,
    forall_mem_append.mpr ⟨hdeep,(forall_mem_cons.mp hd).2⟩,fun c hc => ?_,?_⟩
  · rw [Finset.mem_insert,not_or]
    refine ⟨fun heq => hnot (heq ▸ hc),hfresh c (Multiset.mem_add.mpr (Or.inr hc))⟩
  · rw [Multiset.card_add,Multiset.card_singleton] at hfuel
    omega

theorem collectDirLoop_spec {stack : List Pending}
    {out : List (Name × UInt32)} {Q : List (Name × UInt32) → Machine → Prop}
    {E : Fault → Machine → Prop} (h : Listable m.fs fuel visited stack) :
    wp (collectDirLoop false fuel visited (stack.map fun p => (p.tree.label, p.left)) out) Q E m =
      Q (out ++ stack.flatMap Pending.entries) m := by
  induction fuel generalizing visited stack out with
  | zero =>
    cases stack with
    | nil => rw [map_nil,collectDirLoop,wp_pure,flatMap_nil,append_nil]
    | cons p rest =>
      have hfuel := h.fuel
      rw [map_cons,sum_cons,Multiset.card_add] at hfuel
      have hpos : 0 < p.blocks.card := Multiset.card_pos_iff_exists_mem.mpr ⟨_,ptr_mem_blocks⟩
      omega
  | succ fuel ih =>
    cases stack with
    | nil => rw [map_nil,collectDirLoop,wp_pure,flatMap_nil,append_nil]
    | cons p rest =>
      obtain ⟨k,t,left⟩ := p
      have hmem : t.label.ptr ∈ ((⟨k,t,left⟩ :: rest).map Pending.blocks).sum := by
        exact Multiset.mem_add.mpr (Or.inl ptr_mem_blocks)
      have hst := h.stored _ mem_cons_self
      have hlt := (h.owns.pool _ hmem).2
      have hdeep : k < left := h.deep _ mem_cons_self
      have hleft : left ≠ 0 := by omega
      simp only [map_cons,collectDirLoop,wp_bind,wp_getFs,wp_check,if_pos (h.owns.ne_zero hmem),
        if_pos (And.intro hleft hlt),if_pos (h.fresh _ hmem),wp_readNode hst hlt]
      cases k with
      | zero =>
        obtain ⟨l,recs,rfl⟩ := t.exists_leaf
        have hkind : (m.fs.dev l.ptr).nodeType = nodeLeaf := hst.2.1
        have hparse : (m.fs.dev l.ptr).dirLeafParse = recs := hst.2.2
        have hnext : Listable m.fs fuel (insert l.ptr visited) ([] ++ rest) :=
          h.next (by rw [map_nil,sum_nil,add_zero]; exact blocks_leaf)
            (fun q hq => nomatch hq) fun q hq => nomatch hq
        rw [Tree.label_leaf,if_pos hkind,if_neg (by simp)]
        rw [nil_append] at hnext
        rw [ih hnext,flatMap_cons,← append_assoc]
        rw [hparse]
        rfl
      | succ k =>
        obtain ⟨l,seps,kids,rfl⟩ := t.exists_node
        obtain ⟨-,hint,hkids⟩ := hst
        let below : List Pending := kids.map fun c => ⟨k,c,left - 1⟩
        have hstack : (List.range ((m.fs.dev l.ptr).internalCount + 1)).map (fun i =>
            ((m.fs.dev l.ptr).childLink i, left - 1)) =
            below.map fun p => (p.tree.label, p.left) := by
          have := congrArg (List.map fun l => (l, left - 1)) (map_childLink hint)
          simpa [below,map_map,Function.comp_def] using this
        have hnext : Listable m.fs fuel (insert l.ptr visited) (below ++ rest) := by
          refine h.next ?_ (fun q hq => ?_) fun q hq => ?_
          · rw [map_map]
            exact blocks_node
          · obtain ⟨c,hc,rfl⟩ := mem_map.mp hq
            exact hkids c hc
          · obtain ⟨c,hc,rfl⟩ := mem_map.mp hq
            exact Nat.lt_sub_of_add_lt hdeep
        rw [Tree.label_node,if_neg hint.ne_leaf,hstack,← map_append,ih hnext,flatMap_append,
          flatMap_cons]
        have hentries : below.flatMap Pending.entries =
            Pending.entries ⟨k + 1,.node l seps kids,left⟩ := by
          change _ = (kids.flatMap Tree.records).map entry
          rw [flatMap_map,map_flatMap]
          rfl
        rw [hentries]

omit [Checksum] in
theorem card_le_numBlocks {A : Multiset ℕ} (h : Owns fs A) : A.card ≤ fs.numBlocks := by
  have hle : A.toFinset ⊆ Finset.range fs.numBlocks := fun b hb =>
    Finset.mem_range.mpr (h.pool b (Multiset.mem_toFinset.mp hb)).2
  have hcard := Finset.card_le_card hle
  rwa [Multiset.toFinset_card_of_nodup h.nodup,Finset.card_range] at hcard

theorem collectDirEntries_spec (h : HoldsDir m.fs root) (hcost : root.cost < 101 ^ 63) :
    wp (collectDirEntries root.link treeDepthMax) (fun res m' => m'.fs = m.fs ∧
      res = root.records.map entry)
      (fun e _ => e = .err .noMemory ∧ m.heap 0 = false) m := by
  cases root with
  | empty => exact ⟨rfl,rfl⟩
  | @of k t =>
    rw [collectDirEntries,collectDirEntriesBounded,if_neg h.ne_zero]
    obtain ⟨ho,hst,hord⟩ := h
    simp only [wp_bind,wp_tryZeroed,wp_getFs]
    split
    · have hsum : ([⟨k,t,treeDepthMax⟩].map Pending.blocks).sum = LiberFs.blocks t := by
        rw [map_singleton,sum_singleton]
        rfl
      have hlist : Listable m.fs (m.fs.numBlocks + 1) ∅ [⟨k,t,treeDepthMax⟩] := by
        refine ⟨by rwa [hsum],fun p hp => ?_,fun p hp => ?_,fun b _ => Finset.notMem_empty b,?_⟩
        · rw [mem_singleton.mp hp]
          exact hst
        · rw [mem_singleton.mp hp]
          exact Root.lt_treeDepthMax hcost
        · rw [hsum]
          exact (card_le_numBlocks ho).trans (Nat.le_succ _)
      refine (collectDirLoop_spec (m := { m with heap := fun i => m.heap (i + 1) }) hlist).mpr
        ⟨rfl,?_⟩
      rw [nil_append,flatMap_singleton]
      rfl
    · next hheap => exact ⟨trivial,Bool.eq_false_iff.mpr hheap⟩

end LiberSystem
