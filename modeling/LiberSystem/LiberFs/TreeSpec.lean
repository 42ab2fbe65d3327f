import LiberSystem.LiberFs.Tree

/-!
# What the tree operations do

`Stored` says that the device holds a tree: every node is at the block of its link, has the link's
checksum and decodes to what the node holds. What a leaf holds and what the operation does there is
a parameter.
-/

namespace LiberSystem

open Multiset

open Fallible FsM

namespace LiberFs

variable {R : Type} {IsLeaf : Block → List R → Prop} {fs fs₁ fs₂ : LiberFs} {k i : ℕ}

def blocks (t : Tree Link R k) : Multiset ℕ := t.labels.map Link.ptr

def rowBlocks (ts : List (Tree Link R k)) : Multiset ℕ := (ts.map blocks).sum

variable {l : Link} {seps : List ℕ} {kids ts : List (Tree Link R k)} {t : Tree Link R k}
  {recs : List R}

theorem blocks_leaf : blocks (.leaf l recs) = {l.ptr} := map_singleton _ _

theorem blocks_node : blocks (.node l seps kids) = {l.ptr} + rowBlocks kids := by
  change (l ::ₘ (kids.map Tree.labels).sum).map Link.ptr = _
  rw [map_cons,← singleton_add,rowBlocks]
  congr 1
  induction kids with
  | nil => rfl
  | cons t ts ih =>
    rw [List.map_cons,List.sum_cons,map_add,ih,List.map_cons,List.sum_cons,blocks]

theorem rowBlocks_append {ts' : List (Tree Link R k)} :
    rowBlocks (ts ++ ts') = rowBlocks ts + rowBlocks ts' := by
  rw [rowBlocks,List.map_append,List.sum_append,rowBlocks,rowBlocks]

theorem rowBlocks_singleton : rowBlocks [t] = blocks t := by
  rw [rowBlocks,List.map_singleton,List.sum_singleton]

theorem blocks_le_row (h : t ∈ ts) : blocks t ≤ rowBlocks ts := by
  obtain ⟨ts₁,ts₂,rfl⟩ := List.append_of_mem h
  rw [← List.singleton_append,rowBlocks_append,rowBlocks_append,rowBlocks_singleton]
  exact (le_add_right _ _).trans (le_add_left _ _)

theorem ptr_mem_blocks : t.label.ptr ∈ blocks t := by
  cases k with
  | zero => exact mem_singleton_self _
  | succ k =>
    obtain ⟨l,seps,kids⟩ := t
    rw [blocks_node]
    exact mem_add.mpr (.inl (mem_singleton_self _))

theorem blocks_cut {c : Tree Link R k} (h : kids[i]? = some c) : blocks (.node l seps kids) =
      blocks c + ({l.ptr} + (rowBlocks (kids.take i) + rowBlocks (kids.drop (i + 1)))) := by
  obtain ⟨hi,rfl⟩ := List.getElem?_eq_some_iff.mp h
  rw [blocks_node]
  conv_lhs => rw [take_append_getElem_drop hi]
  rw [rowBlocks_append,rowBlocks_append,rowBlocks_singleton]
  ac_rfl

variable [Checksum]

variable (IsLeaf) in
def Stored (fs : LiberFs) : {k : ℕ} → Tree Link R k → Prop
  | 0, t => (fs.dev t.1.ptr).crc = t.1.crc ∧ (fs.dev t.1.ptr).nodeType = nodeLeaf ∧
      IsLeaf (fs.dev t.1.ptr) t.2
  | _ + 1, t => (fs.dev t.1.ptr).crc = t.1.crc ∧
      (fs.dev t.1.ptr).IsInternal t.2.1 (t.2.2.map Tree.label) ∧ ∀ kid ∈ t.2.2, Stored fs kid

section

variable (h : Stored IsLeaf fs t)
include h

theorem Stored.congr (hdev : ∀ b ∈ blocks t, fs₁.dev b = fs.dev b) : Stored IsLeaf fs₁ t := by
  induction k with
  | zero =>
    have hptr := hdev _ (ptr_mem_blocks)
    change (fs₁.dev t.1.ptr).crc = _ ∧ _
    rw [show fs₁.dev t.1.ptr = fs.dev t.1.ptr from hptr]
    exact h
  | succ k ih =>
    obtain ⟨l,seps,kids⟩ := t
    have hptr : fs₁.dev l.ptr = fs.dev l.ptr := hdev _ (ptr_mem_blocks)
    obtain ⟨hcrc,hint,hkids⟩ := h
    refine ⟨hptr ▸ hcrc,hptr ▸ hint,fun kid hkid => ih (hkids kid hkid) fun b hb => hdev b ?_⟩
    rw [blocks_node]
    exact mem_add.mpr (.inr (mem_of_le (blocks_le_row hkid) hb))

theorem Stored.crc : (fs.dev t.label.ptr).crc = t.label.crc := by
  cases k <;> exact h.1

theorem Stored.nodeType :
    (fs.dev t.label.ptr).nodeType = if k = 0 then nodeLeaf else nodeInternal := by
  cases k with
  | zero => exact h.2.1
  | succ k => exact h.2.1.kind

end

section Node

variable {α : Type} {Q : α → Machine → Prop} {E : Fault → Machine → Prop} {m : Machine} {ptr : ℕ}

theorem wp_readNode {t : Tree Link R k} {Q : Block → Machine → Prop} (h : Stored IsLeaf m.fs t)
    (hlt : t.label.ptr < m.fs.numBlocks) :
    wp (readNode t.label) Q E m = Q (m.fs.dev t.label.ptr) m := by
  have hkind : (m.fs.dev t.label.ptr).nodeType = nodeInternal ∨
      (m.fs.dev t.label.ptr).nodeType = nodeLeaf := by
    rw [h.nodeType]
    split <;> simp
  simp only [readNode,readNodeRaw,wp_bind,wp_getFs,wp_check,wp_readBlock,wp_pure,hlt,h.crc,hkind,
    if_true]

omit [Checksum] in
theorem nodeDest_spec (hs : m.fs.Sound) (ho : Owns m.fs {ptr}) :
    wp (nodeDest ptr) (fun d m' => Trades m.fs {ptr} m'.fs {d} ∧ m'.fs.standing d = .fresh ∧
      m'.fs.dev = m.fs.dev) (fun _ _ => True) m := by
  have h0 : ptr ≠ 0 := ho.ne_zero (mem_singleton_self ptr)
  rw [nodeDest]
  simp only [wp_bind,wp_getFs,wp_ite,h0,ne_eq,not_false_eq_true,true_and,wp_pure]
  split
  · next hfresh => exact ⟨Trades.refl hs ho,hs.standing_eq_fresh.mpr hfresh,trivial⟩
  refine (allocMeta_spec hs).imp fun d m₁ h => ?_
  obtain ⟨hgain,hdev⟩ := h
  have hgain' := hgain.frame (by rwa [zero_add])
  have hown := hgain'.owns
  have hlose := trades_dropBlock hgain.sound (hown.mono (le_add_left _ _))
  rw [add_comm] at hown
  have hlose' := hlose.frame hown
  rw [zero_add,add_comm] at hlose'
  have hd : d ∈ ({d}) := mem_singleton_self d
  have hdp : d ≠ ptr := by
    rintro rfl
    have := nodup_add.mp hown.nodup
    exact (disjoint_left.mp this.2.2) hd hd
  refine ⟨hgain'.trans hlose',?_,?_⟩
  · have hnot : d ∉ ({ptr}) := fun h => hdp (mem_singleton.mp h)
    rw [show (m₁.fs.dropBlock ptr).standing d = m₁.fs.standing d from
      hlose.same d (iff_of_false hnot (notMem_zero d))]
    exact (hgain.gain d (notMem_zero d) hd).2
  · have hdrop : (m₁.fs.dropBlock ptr).dev = m₁.fs.dev := by
      rw [LiberFs.dropBlock]
      split_ifs <;> rfl
    exact hdrop.trans hdev

/-- The node at `ptr` was written anew: as `buf`, at the block of `link`. -/
structure Rewritten (fs : LiberFs) (ptr : ℕ) (fs' : LiberFs) (link : Link) (buf : Block) :
    Prop where
  trades : Trades fs {ptr} fs' {link.ptr}
  dev : fs'.dev link.ptr = buf
  crc : buf.crc = link.crc

variable {buf : Block} {Q : Link → Machine → Prop}

section

variable (hdev : fs.dev l.ptr = buf) (hcrc : buf.crc = l.crc)
include hdev hcrc

theorem stored_leaf (htype : buf.nodeType = nodeLeaf) (hleaf : IsLeaf buf recs) :
    Stored IsLeaf fs (.leaf l recs) := by
  subst hdev
  exact ⟨hcrc,htype,hleaf⟩

theorem stored_node
    (hint : buf.IsInternal seps (kids.map Tree.label)) (hkids : ∀ t ∈ kids, Stored IsLeaf fs t) :
    Stored IsLeaf fs (.node l seps kids) := by
  subst hdev
  exact ⟨hcrc,hint,hkids⟩

end

theorem wp_writeNodeTo {d : ℕ}
    (hs : m.fs.Sound) (ho : Owns m.fs {d}) (hfresh : m.fs.standing d = .fresh)
    (hQ : ∀ l m', l.ptr = d → Rewritten m.fs d m'.fs l buf → Q l m') :
    wp (writeNodeTo d buf) Q E m := by
  exact hQ _ _ rfl ⟨trades_write hs ho hfresh,Function.update_self _ _ _,rfl⟩

theorem wp_rewrite (hs : m.fs.Sound) (ho : Owns m.fs {ptr})
    (hQ : ∀ l m', Rewritten m.fs ptr m'.fs l buf → Q l m') :
    wp (nodeDest ptr) (fun d m' => wp (writeNodeTo d buf) Q (fun _ _ => True) m')
      (fun _ _ => True) m := by
  refine (nodeDest_spec hs ho).imp fun d m₁ h => ?_
  obtain ⟨htrade,hfresh,-⟩ := h
  refine wp_writeNodeTo htrade.sound htrade.owns hfresh fun l m₂ hl hw => ?_
  refine hQ l m₂ ⟨htrade.trans ?_,hw.dev,hw.crc⟩
  exact hw.trades

end Node

section Row

variable {l : Link} {seps : List ℕ} {kids ts : List (Tree Link R k)} {c : Tree Link R k}
  {N : Multiset ℕ}

omit [Checksum] in
theorem trades_row (ho : Owns fs (blocks (.node l seps kids))) (hi : kids[i]? = some c)
    (hc : Trades fs (blocks c) fs₁ (rowBlocks ts)) (hn : Trades fs₁ {l.ptr} fs₂ N) :
    Trades fs (blocks (.node l seps kids)) fs₂
      (N + rowBlocks (kids.take i ++ ts ++ kids.drop (i + 1))) := by
  rw [blocks_cut hi] at ho ⊢
  have hc' := hc.frame ho
  rw [add_left_comm (rowBlocks ts)] at hc'
  have hrow : rowBlocks (kids.take i ++ ts ++ kids.drop (i + 1)) =
      rowBlocks ts + (rowBlocks (kids.take i) + rowBlocks (kids.drop (i + 1))) := by
    rw [rowBlocks_append,rowBlocks_append]
    ac_rfl
  rw [hrow]
  exact hc'.trans (hn.frame hc'.owns)

theorem stored_row (ho : Owns fs (blocks (.node l seps kids))) (hi : kids[i]? = some c)
    (hc : Trades fs (blocks c) fs₁ (rowBlocks ts)) (hn : Trades fs₁ {l.ptr} fs₂ N)
    (hkids : ∀ t ∈ kids, Stored IsLeaf fs t) (hts : ∀ t ∈ ts, Stored IsLeaf fs₁ t) :
    ∀ t ∈ kids.take i ++ ts ++ kids.drop (i + 1), Stored IsLeaf fs₂ t := by
  rw [blocks_cut hi] at ho
  have hown := (hc.frame ho).owns
  rw [add_left_comm (rowBlocks ts)] at hown
  have hold : ∀ t ∈ kids, blocks t ≤ rowBlocks (kids.take i) + rowBlocks (kids.drop (i + 1)) →
      Stored IsLeaf fs₂ t := fun t ht hle => by
    refine (hkids t ht).congr fun b hb => ?_
    have hb := mem_of_le hle hb
    rw [hn.dev_frame hown (mem_add.mpr (.inr hb)),hc.dev_frame ho (mem_add.mpr (.inr hb))]
  intro t ht
  rcases List.mem_append.mp ht with ht | ht
  · rcases List.mem_append.mp ht with ht | ht
    · exact hold t (List.mem_of_mem_take ht) ((blocks_le_row ht).trans (le_add_right _ _))
    · refine (hts t ht).congr fun b hb => ?_
      have hb := mem_of_le (blocks_le_row ht) hb
      exact hn.dev_frame hown (mem_add.mpr (.inl hb))
  · exact hold t (List.mem_of_mem_drop ht) ((blocks_le_row ht).trans (le_add_left _ _))

end Row

end LiberFs

end LiberSystem
