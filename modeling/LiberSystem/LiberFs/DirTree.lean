import LiberSystem.LiberFs.DirLeaf

/-!
# Directory trees

`dirTreeLookup`, `dirTreeInsert`, `dirTreeDelete` and the listing of a directory, and
what the first three do in a leaf.
-/

namespace LiberSystem

open List DirRec

open Fallible FsM LiberFs

namespace FsM

variable [Checksum] (root : Link) (name : Name)

def dirTreeLookup : FsM (Option UInt32) := do
  if root.ptr = 0 then return none
  else do
    let _ ← tryZeroed
    descend (fun buf =>
      let recs := buf.dirLeafParse
      match dirRecsSearch recs (nameHash name) name with
      | .ok pos => recs[pos]?.map DirRec.child
      | .error _ => none) (nameHash name) treeDepthMax root

/-- What `dir_insert_node` does in a leaf: insert or repoint the name, and split the
leaf at a hash boundary if it is then too large. -/
def dirLeafInsert (child : UInt32) (ptr : ℕ) (buf : Block) : FsM Ins := do
  let hash := nameHash name
  let recs := buf.dirLeafParse
  check (buf.validateDirLeaf recs = none) .corrupt
  let recs := match dirRecsSearch recs hash name with
    | .ok pos => recs.modify pos fun r => { r with child := child }
    | .error pos => recs.insertIdx pos ⟨hash,name,child⟩
  if dirLeafSize recs ≤ blockSize then do
    let dest ← nodeDest ptr
    let buf ← dirLeafWrite recs
    return .updated (← writeNodeTo dest buf)
  else
    match dirSplitPoint recs with
    | none => throw (.err .noSpace)
    | some split => do
      let leftDest ← nodeDest ptr
      let rightDest ← allocMeta
      let _ ← tryZeroed
      let lbuf ← dirLeafWrite (recs.take split)
      let _ ← tryZeroed
      let rbuf ← dirLeafWrite (recs.drop split)
      let llink ← writeNodeTo leftDest lbuf
      let rlink ← writeNodeTo rightDest rbuf
      return .split llink ((recs[split]?.map DirRec.hash).getD 0) rlink

def dirInsertNode (link : Link) (name : Name) (child : UInt32) (depth : ℕ) : FsM Ins :=
  insertNode (dirLeafInsert name child) (nameHash name) depth link

def dirTreeInsert (child : UInt32) : FsM Link := do
  if root.ptr = 0 then do
    let blk ← allocMeta
    let _ ← tryZeroed
    let buf ← dirLeafWrite [⟨nameHash name,name,child⟩]
    writeNodeTo blk buf
  else do
    let outcome ← dirInsertNode root name child treeDepthMax
    settleRoot outcome

def dirLeafDelete (ptr : ℕ) (buf : Block) : FsM Del := do
  let recs := buf.dirLeafParse
  check (buf.validateDirLeaf recs = none) .corrupt
  match dirRecsSearch recs (nameHash name) name with
  | .error _ => return .notFound
  | .ok pos =>
    if recs.length = 1 then do
      dropBlock ptr
      return .empty
    else do
      let dest ← nodeDest ptr
      let buf ← dirLeafWrite (recs.eraseIdx pos)
      return .updated (← writeNodeTo dest buf)

def dirDeleteNode (link : Link) (name : Name) (depth : ℕ) : FsM Del :=
  deleteNode (dirLeafDelete name) (nameHash name) depth link

def dirTreeDelete : FsM (Link × Bool) := do
  if root.ptr = 0 then return (⟨0,0⟩, false)
  else do
    let outcome ← dirDeleteNode root name treeDepthMax
    settleDel root outcome

/-- The loop of the listing: the links still to be visited with the levels left below
each, the blocks visited and the entries so far. Every turn visits another block of the
volume, which bounds the turns. -/
def collectDirLoop (stopEarly : Bool) : ℕ → Finset ℕ → List (Link × ℕ) → List (Name × UInt32) →
    FsM (List (Name × UInt32))
  | _, _, [], out => return out
  | 0, _, _ :: _, _ => throw (.err .corrupt)
  | fuel + 1, visited, (link, left) :: stack, out => do
    let fs ← getFs
    check (link.ptr ≠ 0) .corrupt
    check (left ≠ 0 ∧ link.ptr < fs.numBlocks) .corrupt
    check (link.ptr ∉ visited) .corrupt
    let buf ← readNode link
    if buf.nodeType = nodeLeaf then
      let entries := buf.dirLeafParse.map fun r => (r.name, r.child)
      if stopEarly = true ∧ entries ≠ [] then return out ++ entries.take 1
      else collectDirLoop stopEarly fuel (insert link.ptr visited) stack (out ++ entries)
    else
      let kids := (List.range (buf.internalCount + 1)).map fun i => (buf.childLink i, left - 1)
      collectDirLoop stopEarly fuel (insert link.ptr visited) (kids ++ stack) out

def collectDirEntriesBounded (depth : ℕ) (stopEarly : Bool) : FsM (List (Name × UInt32)) := do
  if root.ptr = 0 then return []
  else do
    let _ ← tryZeroed
    let fs ← getFs
    collectDirLoop stopEarly (fs.numBlocks + 1) ∅ [(root, depth)] []

def collectDirEntries (depth : ℕ) : FsM (List (Name × UInt32)) :=
  collectDirEntriesBounded root depth false

end FsM

variable {recs : List DirRec} {name : Name} {child : UInt32} {p : ℕ}

theorem DirRec.compareTo_eq (r : DirRec) (name : Name) :
    r.compareTo (nameHash name) name = cmp r.key (nameKey name) := by
  rw [compareTo,key,nameKey]
  cases h : cmp r.hash (nameHash name) with
  | lt =>
    refine ((cmp_eq_lt_iff _ _).mpr ?_).symm
    exact Prod.Lex.toLex_lt_toLex.mpr (.inl ((cmp_eq_lt_iff _ _).mp h))
  | gt =>
    refine ((cmp_eq_gt_iff _ _).mpr ?_).symm
    exact Prod.Lex.toLex_lt_toLex.mpr (.inl ((cmp_eq_gt_iff _ _).mp h))
  | eq =>
    have heq : r.hash = nameHash name := (cmp_eq_eq_iff _ _).mp h
    have hcmp : cmp r.name name = @cmp Name Preorder.toLT LinearOrder.toDecidableLT r.name name :=
      congrArg (fun d => @cmp Name Preorder.toLT d r.name name) (Subsingleton.elim _ _)
    rw [heq,hcmp]
    cases h' : @cmp Name Preorder.toLT LinearOrder.toDecidableLT r.name name with
    | lt =>
      refine ((cmp_eq_lt_iff _ _).mpr ?_).symm
      exact Prod.Lex.toLex_lt_toLex.mpr (.inr ⟨rfl,(cmp_eq_lt_iff _ _).mp h'⟩)
    | gt =>
      refine ((cmp_eq_gt_iff _ _).mpr ?_).symm
      exact Prod.Lex.toLex_lt_toLex.mpr (.inr ⟨rfl,(cmp_eq_gt_iff _ _).mp h'⟩)
    | eq => rw [(cmp_eq_eq_iff _ _).mp h',cmp_self_eq_eq]

theorem found_dirRecsSearch (name : Name) (h : Ascending key recs) :
    Found key (nameKey name) recs (dirRecsSearch recs (nameHash name) name) := by
  refine found_search h fun i hi => ?_
  rw [List.getElem?_eq_getElem hi,Option.map_some,Option.getD_some]
  exact compareTo_eq _ _

theorem upsert_eq_search (h : Ascending DirRec.key recs) :
    (match dirRecsSearch recs (nameHash name) name with
      | .ok pos => recs.modify pos fun r => { r with child := child }
      | .error pos => recs.insertIdx pos ⟨nameHash name,name,child⟩) =
    upsert DirRec.key ⟨nameHash name,name,child⟩ recs := by
  have hspec := found_dirRecsSearch name h
  cases hs : dirRecsSearch recs (nameHash name) name with
  | ok pos =>
    rw [hs] at hspec
    obtain ⟨hp,hkey⟩ := hspec
    have hpair := toLex_inj.mp hkey
    have hkey : recs[pos].key = DirRec.key ⟨nameHash name,name,child⟩ := hkey
    have hrec : ({ recs[pos] with child := child } : DirRec) = ⟨nameHash name,name,child⟩ := by
      rw [DirRec.mk.injEq]
      exact ⟨(Prod.mk.inj hpair).1,(Prod.mk.inj hpair).2,rfl⟩
    rw [upsert_eq_set h hp hkey,← hrec]
    exact modify_eq_set_get _ hp
  | error pos =>
    rw [hs] at hspec
    exact (upsert_eq_insertIdx hspec.1 hspec.2.1 hspec.2.2).symm

theorem dirMidFrom_lt {total n mid i acc : ℕ} {rs : List DirRec} (hn : 0 < n) (hmid : mid < n) :
    dirMidFrom total n mid rs i acc < n := by
  induction rs generalizing i acc with
  | nil => exact hmid
  | cons r rs ih =>
    rw [dirMidFrom]
    split
    · omega
    · exact ih

theorem dirSplitPoint_spec (hne : recs ≠ []) (h : dirSplitPoint recs = some p) :
    0 < p ∧ ∃ hp : p < recs.length, recs[p - 1].hash ≠ recs[p].hash := by
  have hpos : 0 < recs.length := length_pos_iff.mpr hne
  rw [dirSplitPoint] at h
  set mid := dirMidFrom (dirLeafSize recs - nodeHdr) recs.length (recs.length / 2) recs 0 0 with hm
  have hmid : mid < recs.length := dirMidFrom_lt hpos (by omega)
  set hashes := recs.map hash with hh
  have hlen : hashes.length = recs.length := length_map _
  have hup := @splitUp_spec hashes recs.length (max mid 1) (by omega)
  have hdown := @splitDown_le hashes mid
  simp only at h
  split at h
  · next hlt =>
    cases h
    exact ⟨by omega,hlt,fun heq => hup.2 (by rwa [hlen]) ((sameKey_map hlt).mpr heq.symm)⟩
  split at h
  · next hcond =>
    cases h
    have hlt : splitDown hashes mid < recs.length := by omega
    exact ⟨hcond.1,hlt,fun heq => hcond.2 ((sameKey_map hlt).mpr heq.symm)⟩
  · cases h

def IsDirLeaf (b : Block) (recs : List DirRec) : Prop := b.dirLeafParse = recs

theorem isDirLeaf_dirLeafBlock (hsize : dirLeafSize recs ≤ blockSize)
    (hfits : ∀ r ∈ recs, r.Fits) : IsDirLeaf (dirLeafBlock recs) recs :=
  dirLeafParse_dirLeafBlock hsize hfits

theorem wp_dirLeafWrite {Q : Block → Machine → Prop} {E : Fault → Machine → Prop} {m : Machine} :
    wp (dirLeafWrite recs) Q E m =
      if dirLeafSize recs ≤ blockSize then Q (dirLeafBlock recs) m else E .panic m := by
  rw [dirLeafWrite]
  split <;> rfl

section Leaf

variable [Checksum]

theorem dirLeafInserts (hname : name.length ≤ nameMax) :
    LeafInserts key hashOf IsDirLeaf ⟨nameHash name,name,child⟩ (dirLeafInsert name child) := by
  intro m l recs lo hi hs ho hst hord hlo hhi _
  obtain ⟨-,-,hleaf⟩ := hst
  have hparse : (m.fs.dev l.ptr).dirLeafParse = recs := hleaf
  have hasc : Ascending key recs := hord.2.1
  have hfits : ∀ r ∈ upsert key ⟨nameHash name,name,child⟩ recs, r.Fits := by
    intro r hr
    rcases mem_upsert.mp hr with rfl | ⟨hr,-⟩
    · exact ⟨nameHash_lt name,hname⟩
    · exact fits_of_mem_parse (hparse ▸ hr)
  have hne : upsert key ⟨nameHash name,name,child⟩ recs ≠ [] :=
    ne_nil_of_mem (mem_upsert.mpr (.inl rfl))
  simp only [dirLeafInsert,hparse,upsert_eq_search hasc,wp_bind,wp_check,wp_ite]
  split
  · set recs' := upsert key ⟨nameHash name,name,child⟩ recs with hrecs
    split
    · next hsize =>
      -- the leaf has room
      simp only [wp_dirLeafWrite,if_pos hsize,wp_pure]
      refine wp_rewrite hs ho fun l' m' hw => ⟨[.leaf l' recs'],?_⟩
      exact inserted_leaf hord hlo hhi hw header_dirLeafBlock.1 (isDirLeaf_dirLeafBlock hsize hfits)
    cases hsplit : dirSplitPoint recs' with
    | none => trivial
    | some p =>
      obtain ⟨hp,hlt,hhash⟩ := dirSplitPoint_spec hne hsplit
      simp only [wp_bind,wp_pure,wp_dirLeafWrite]
      refine wp_twoDests hs ho fun d d' m₁ htrade hfresh hfresh' => ?_
      refine wp_tryZeroed_of fun m₂ h₂ => ?_
      split
      · next hleft =>
        refine wp_tryZeroed_of fun m₃ h₃ => ?_
        rw [← h₂,← h₃] at htrade hfresh hfresh'
        split
        · next hright =>
          refine wp_writeTwo htrade.sound htrade.owns hfresh hfresh' ?_
          intro l₁ l₂ m₄ hw hdev hcrc hdev' hcrc'
          refine ⟨[.leaf l₁ (recs'.take p),.leaf l₂ (recs'.drop p)],?_⟩
          have hst : Stored IsDirLeaf m₄.fs (.leaf l₁ (recs'.take p)) :=
            stored_leaf hdev hcrc header_dirLeafBlock.1 (isDirLeaf_dirLeafBlock hleft
              fun r hr => hfits r (mem_of_mem_take hr))
          have hst' : Stored IsDirLeaf m₄.fs (.leaf l₂ (recs'.drop p)) :=
            stored_leaf hdev' hcrc' header_dirLeafBlock.1 (isDirLeaf_dirLeafBlock hright
              fun r hr => hfits r (mem_of_mem_drop hr))
          rw [List.getElem?_eq_getElem hlt]
          exact inserted_leaves hashOf_mono hord hlo hhi hrecs hp hlt hhash (htrade.trans hw) hst
            hst'
        · trivial
      · trivial
  · trivial

theorem dirLeafDeletes : LeafDeletes key hashOf IsDirLeaf (nameKey name) (dirLeafDelete name) := by
  intro m l recs lo hi hs ho hst hord _ _ _
  obtain ⟨-,-,hleaf⟩ := hst
  have hparse : (m.fs.dev l.ptr).dirLeafParse = recs := hleaf
  have hasc : Ascending key recs := hord.2.1
  have hspec := found_dirRecsSearch name hasc
  simp only [dirLeafDelete,hparse,wp_bind,wp_check]
  split
  · cases hsearch : dirRecsSearch recs (nameHash name) name with
    | error pos =>
      rw [hsearch] at hspec
      exact ⟨rfl,hspec.ne⟩
    | ok pos =>
      rw [hsearch] at hspec
      obtain ⟨hp,hkey⟩ := hspec
      have hfound : ∃ x ∈ recs, x.key = nameKey name := ⟨_,getElem_mem hp,hkey⟩
      have herase := without_eq_eraseIdx hasc hp hkey
      simp only [wp_ite,wp_bind,wp_pure]
      split
      · next hone =>
        refine deleted_last hfound ?_ (trades_dropBlock hs ho)
        rw [herase]
        apply eq_nil_of_length_eq_zero
        rw [length_eraseIdx_of_lt hp]
        omega
      next hone =>
      have hne : without key (nameKey name) recs ≠ [] := by
        rw [herase]
        apply ne_nil_of_length_pos
        rw [length_eraseIdx_of_lt hp]
        omega
      rw [← herase]
      simp only [wp_dirLeafWrite]
      by_cases hsize : dirLeafSize (without key (nameKey name) recs) ≤ blockSize
      · simp only [if_pos hsize]
        refine wp_rewrite hs ho fun l' m' hw =>
          ⟨.leaf l' (without key (nameKey name) recs),rfl,?_⟩
        refine deleted_leaf hord hfound hne hw header_dirLeafBlock.1 ?_
        refine isDirLeaf_dirLeafBlock hsize fun r hr => ?_
        exact fits_of_mem_parse (hparse ▸ (mem_without.mp hr).1)
      · simp only [if_neg hsize]
        exact (nodeDest_spec hs ho).imp fun _ _ _ => trivial
  · trivial

end Leaf

end LiberSystem
