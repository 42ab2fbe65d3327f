import LiberSystem.LiberFs.TreeRoot

/-!
# Leaves rewritten and split

What the insertion or deletion of a record in a leaf leaves behind, from what it wrote:
one leaf with the new records, two leaves that share them out at a boundary between two
routing numbers, or none.
-/

namespace LiberSystem

open List

open Fallible FsM

section Split

variable {keys : List ℕ} {i fuel up down : ℕ}

def sameKey (keys : List ℕ) (i : ℕ) : Prop := keys[i]? = keys[i - 1]?

instance (keys : List ℕ) (i : ℕ) : Decidable (sameKey keys i) := inferInstanceAs (Decidable (_ = _))

/-- Upwards to the next boundary between two keys, by at most `fuel` steps. -/
def splitUp (keys : List ℕ) : ℕ → ℕ → ℕ
  | 0, up => up
  | fuel + 1, up => if up < keys.length ∧ sameKey keys up then splitUp keys fuel (up + 1) else up

def splitDown (keys : List ℕ) : ℕ → ℕ
  | 0 => 0
  | down + 1 =>
    if down + 1 > 1 ∧ sameKey keys (down + 1) then splitDown keys down else down + 1

theorem splitUp_spec (hfuel : keys.length ≤ up + fuel) : up ≤ splitUp keys fuel up ∧
    (splitUp keys fuel up < keys.length → ¬sameKey keys (splitUp keys fuel up)) := by
  induction fuel generalizing up with
  | zero => exact ⟨le_rfl,fun h => absurd h (not_lt.mpr hfuel)⟩
  | succ fuel ih =>
    rw [splitUp]
    split
    · obtain ⟨hle,hnot⟩ := ih (show keys.length ≤ up + 1 + fuel by omega)
      exact ⟨by omega,hnot⟩
    · next h => exact ⟨le_rfl,fun hlt hsame => h ⟨hlt,hsame⟩⟩

theorem splitDown_le : splitDown keys down ≤ down := by
  induction down with
  | zero => exact le_rfl
  | succ down ih =>
    rw [splitDown]
    split
    · exact ih.trans (Nat.le_succ down)
    · exact le_rfl

theorem sameKey_map {R : Type} {f : R → ℕ} {recs : List R} (hi : i < recs.length) :
    sameKey (recs.map f) i ↔ f recs[i] = f recs[i - 1] := by
  rw [sameKey,List.getElem?_map,List.getElem?_map,List.getElem?_eq_getElem hi,
    List.getElem?_eq_getElem (by omega),Option.map_some,Option.map_some,Option.some_inj]

end Split

namespace LiberFs

variable [Checksum] {R K : Type} [LinearOrder K] {key : R → K} {rank : K → ℕ}
  {IsLeaf : Block → List R → Prop} {fs fs' : LiberFs} {lo hi p : ℕ} {l l₁ l₂ : Link}
  {recs recs' : List R} {r : R} {q : K} {buf : Block}

omit [Checksum] in
theorem ordered_upsert (h : Tree.Ordered key rank lo hi (.leaf l recs)) (hlo : lo ≤ rank (key r))
    (hhi : rank (key r) < hi) :
    Tree.Ordered key rank lo hi (.leaf l₁ (upsert key r recs)) := by
  obtain ⟨-,hasc,hin⟩ := h
  refine ⟨ne_nil_of_mem (mem_upsert.mpr (Or.inl rfl)),hasc.upsert,fun x hx => ?_⟩
  rcases mem_upsert.mp hx with rfl | ⟨hx,-⟩
  · exact ⟨hlo,hhi⟩
  · exact hin x hx

theorem inserted_leaf (h : Tree.Ordered key rank lo hi (.leaf l recs)) (hlo : lo ≤ rank (key r))
    (hhi : rank (key r) < hi) (hw : Rewritten fs l.ptr fs' l₁ buf)
    (htype : buf.nodeType = nodeLeaf) (hleaf : IsLeaf buf (upsert key r recs)) :
    Inserted key rank IsLeaf r lo hi fs (.leaf l recs) fs' (.updated l₁)
      [.leaf l₁ (upsert key r recs)] where
  links := rfl
  trades := by
    exact hw.trades
  stored t ht := by
    rw [mem_singleton.mp ht]
    exact stored_leaf hw.dev hw.crc htype hleaf
  routes := .last (ordered_upsert h hlo hhi)
  records := flatMap_singleton _ _
  paid := Nat.zero_le _

omit [Checksum] in
theorem routes_split (hrank : Monotone rank) (h : Tree.Ordered key rank lo hi (.leaf l recs))
    (hp : 0 < p) (hlt : p < recs.length) (hne : rank (key recs[p - 1]) ≠ rank (key recs[p])) :
    Routes (Tree.Ordered key rank) lo [rank (key recs[p])]
      [.leaf l₁ (recs.take p),.leaf l₂ (recs.drop p)] hi := by
  obtain ⟨-,hasc,hin⟩ := h
  have hstep : rank (key recs[p - 1]) < rank (key recs[p]) :=
    lt_of_le_of_ne (hrank (pairwise_iff_getElem.mp hasc _ _ _ _ (by omega)).le) hne
  refine .cons ⟨?_,hasc.sublist (take_sublist _ _),fun x hx => ⟨?_,?_⟩⟩
    (.last ⟨?_,hasc.sublist (drop_sublist _ _),fun x hx => ⟨?_,?_⟩⟩)
  · exact ne_nil_of_length_pos (by rw [length_take]; omega)
  · exact (hin x (mem_of_mem_take hx)).1
  · obtain ⟨i,hi',rfl⟩ := mem_take_iff_getElem.mp hx
    refine lt_of_le_of_lt (hrank ?_) hstep
    rcases Nat.lt_or_ge i (p - 1) with hi'' | hi''
    · exact (pairwise_iff_getElem.mp hasc _ _ _ _ hi'').le
    · exact le_of_eq (by congr 2; omega)
  · exact ne_nil_of_length_pos (by rw [length_drop]; omega)
  · obtain ⟨i,hi',rfl⟩ := mem_drop_iff_getElem.mp hx
    refine hrank ?_
    rcases Nat.eq_zero_or_pos i with rfl | hi''
    · exact le_rfl
    · exact (pairwise_iff_getElem.mp hasc _ _ _ _ (by omega)).le
  · exact (hin x (mem_of_mem_drop hx)).2

theorem inserted_leaves (hrank : Monotone rank) (h : Tree.Ordered key rank lo hi (.leaf l recs))
    (hlo : lo ≤ rank (key r)) (hhi : rank (key r) < hi) (hrecs : recs' = upsert key r recs)
    (hp : 0 < p) (hlt : p < recs'.length) (hne : rank (key recs'[p - 1]) ≠ rank (key recs'[p]))
    (htrades : Trades fs {l.ptr} fs' ({l₁.ptr} + {l₂.ptr}))
    (hst₁ : Stored IsLeaf fs' (.leaf l₁ (recs'.take p)))
    (hst₂ : Stored IsLeaf fs' (.leaf l₂ (recs'.drop p))) :
    Inserted key rank IsLeaf r lo hi fs (.leaf l recs) fs'
      (.split l₁ (rank (key recs'[p])) l₂) [.leaf l₁ (recs'.take p),.leaf l₂ (recs'.drop p)] where
  links := rfl
  trades := by
    rw [← singleton_append,rowBlocks_append,rowBlocks_singleton,rowBlocks_singleton,blocks_leaf,
      blocks_leaf,blocks_leaf]
    exact htrades
  stored t ht := by
    rcases mem_cons.mp ht with rfl | ht
    · exact hst₁
    · rw [mem_singleton.mp ht]
      exact hst₂
  routes := by
    subst hrecs
    have hord : Tree.Ordered key rank lo hi (.leaf l (upsert key r recs)) :=
      ordered_upsert h hlo hhi
    exact routes_split hrank hord hp hlt hne
  records := by
    rw [flatMap_cons,flatMap_singleton]
    exact (take_append_drop _ _).trans hrecs
  paid := le_of_eq rfl

theorem deleted_leaf (h : Tree.Ordered key rank lo hi (.leaf l recs))
    (hfound : ∃ x ∈ recs, key x = q) (hne : without key q recs ≠ [])
    (hw : Rewritten fs l.ptr fs' l₁ buf) (htype : buf.nodeType = nodeLeaf)
    (hleaf : IsLeaf buf (without key q recs)) :
    Deleted key rank IsLeaf q lo hi fs (.leaf l recs) fs' [.leaf l₁ (without key q recs)] where
  trades := by
    exact hw.trades
  stored t ht := by
    rw [mem_singleton.mp ht]
    exact stored_leaf hw.dev hw.crc htype hleaf
  ordered t ht := by
    rw [mem_singleton.mp ht]
    exact ⟨hne,Ascending.without h.2.1,fun x hx => h.2.2 x (mem_without.mp hx).1⟩
  found := hfound
  records := flatMap_singleton _ _
  paid := Nat.zero_le _

theorem deleted_last (hfound : ∃ x ∈ recs, key x = q) (hnil : without key q recs = [])
    (htrades : Trades fs {l.ptr} fs' 0) :
    Deleted key rank IsLeaf q lo hi fs (.leaf l recs) fs' [] where
  trades := by
    exact htrades
  stored t ht := nomatch ht
  ordered t ht := nomatch ht
  found := hfound
  records := hnil.symm
  paid := Nat.zero_le _

end LiberFs

end LiberSystem
