import LiberSystem.LiberFs.TreeDelete

/-!
# Whole block trees

A root is a tree of some height or the empty tree, whose link has block 0. `Holds` says that the
volume holds the tree of a root. The height is bounded through the number of insertions.
-/

namespace LiberSystem

open List

open Fallible FsM LiberFs

def Root (R : Type) : Type := Option ((k : ℕ) × Tree Link R k)

namespace Root

variable [Checksum] {R K : Type} [LinearOrder K] {key : R → K} {rank : K → ℕ}
  {IsLeaf : Block → List R → Prop} {fs : LiberFs} {k lo hi : ℕ} {m : Machine}

def empty : Root R := none

def of (t : Tree Link R k) : Root R := some ⟨k,t⟩

@[elab_as_elim,cases_eliminator]
def cases {motive : Root R → Sort*} (empty : motive empty)
    (of : ∀ {k : ℕ} (t : Tree Link R k), motive (of t)) : (root : Root R) → motive root
  | none => empty
  | some ⟨_,t⟩ => of t

def link : Root R → Link
  | none => ⟨0,0⟩
  | some ⟨_,t⟩ => t.label

def records : Root R → List R
  | none => []
  | some ⟨_,t⟩ => t.records

def blocks : Root R → Multiset ℕ
  | none => 0
  | some ⟨_,t⟩ => LiberFs.blocks t

def cost : Root R → ℕ
  | none => 0
  | some ⟨k,t⟩ => fill t + Tree.toGrow 101 k

variable (key rank IsLeaf) in
def Holds (fs : LiberFs) : Root R → Prop
  | none => True
  | some ⟨_,t⟩ => Owns fs (LiberFs.blocks t) ∧ Stored IsLeaf fs t ∧
      Tree.Ordered key rank 0 (2 ^ 64) t

variable (key rank IsLeaf) in
/-- The tree `root` was traded for `root'`, whose link is `l` and whose records are
`recs`, with at most `c` more insertions. -/
structure Becomes (fs : LiberFs) (root : Root R) (fs' : LiberFs) (l : Link) (recs : List R) (c : ℕ)
    (root' : Root R) : Prop where
  link : root'.link = l
  trades : Trades fs root.blocks fs' root'.blocks
  holds : root'.Holds key rank IsLeaf fs'
  records : root'.records = recs
  cost : root'.cost ≤ root.cost + c

theorem Holds.owns {root : Root R} (h : Holds key rank IsLeaf fs root) : Owns fs root.blocks := by
  cases root with
  | empty =>
    exact ⟨Multiset.nodup_zero,fun b hb => absurd hb (Multiset.notMem_zero b),
      fun b hb => absurd hb (Multiset.notMem_zero b)⟩
  | of t => exact h.1

theorem Holds.ascending (hrank : Monotone rank) {root : Root R}
    (h : Holds key rank IsLeaf fs root) : Ascending key root.records := by
  cases root with
  | empty => exact List.Pairwise.nil
  | of t => exact h.2.2.ascending hrank

variable (key rank) in
/-- The separators of the tree ascend and route every key to the child that holds it. -/
def Separated : Root R → Prop
  | none => True
  | some ⟨_,t⟩ => Tree.Separated key rank t

theorem Holds.separated {root : Root R} (h : Holds key rank IsLeaf fs root) :
    root.Separated key rank := by
  cases root with
  | empty => trivial
  | of t => exact h.2.2.separated

theorem Holds.ne_zero {t : Tree Link R k} (h : (of t).Holds key rank IsLeaf fs) :
    ¬(of t).link.ptr = 0 := h.1.ne_zero ptr_mem_blocks

omit [Checksum] in
/-- A tree that took fewer than 101 ^ 63 insertions is at most 64 levels deep. -/
theorem lt_treeDepthMax {t : Tree Link R k} (h : (of t).cost < 101 ^ 63) : k < treeDepthMax := by
  by_contra hk
  obtain ⟨j,rfl⟩ := Nat.exists_eq_add_of_le (not_lt.mp hk)
  have hgrow : Tree.toGrow 101 (treeDepthMax + j) = 101 ^ (63 + j) := by
    rw [show treeDepthMax + j = 63 + j + 1 by rw [treeDepthMax]; omega]
    rfl
  have hle : 101 ^ 63 ≤ 101 ^ (63 + j) := Nat.pow_le_pow_right (by decide) (by omega)
  have hcost : Tree.toGrow 101 (treeDepthMax + j) ≤ (of t).cost := Nat.le_add_left _ _
  omega

/-- A node is written to a new block. -/
theorem wp_newNode {buf : Block} {Q : Link → Machine → Prop} (hs : m.fs.Sound)
    (hQ : ∀ l m', Trades m.fs 0 m'.fs {l.ptr} → m'.fs.dev l.ptr = buf → buf.crc = l.crc → Q l m') :
    wp allocMeta (fun d m₁ => wp tryZeroed (fun _ m₂ => wp (writeNodeTo d buf) Q
      (fun _ _ => True) m₂) (fun _ _ => True) m₁) (fun _ _ => True) m := by
  refine (allocMeta_spec hs).imp fun d m₁ hd => ?_
  obtain ⟨hgain,-⟩ := hd
  refine wp_tryZeroed_of fun m₂ h₂ => ?_
  rw [← h₂] at hgain
  refine wp_writeNodeTo hgain.sound hgain.owns
    (hgain.gain d (Multiset.notMem_zero d) (Multiset.mem_singleton_self d)).2 fun l m₃ _ hw => ?_
  exact hQ l m₃ (hgain.trans hw.trades) hw.dev hw.crc

theorem settleRoot_spec {t : Tree Link R k} {r : R} {out : Ins} {ts : List (Tree Link R k)}
    (h : Inserted key rank IsLeaf r 0 (2 ^ 64) fs t m.fs out ts) :
    wp (settleRoot out) (fun l m' => ∃ root,
      Becomes key rank IsLeaf fs (of t) m'.fs l (upsert key r t.records) 1 root)
      (fun _ _ => True) m := by
  have hlinks := h.links
  have htrades := h.trades
  cases out with
  | updated link =>
    obtain ⟨t',rfl,rfl⟩ := map_eq_singleton_iff.mp hlinks
    rw [rowBlocks_singleton] at htrades
    have hrecs := h.records
    rw [flatMap_singleton] at hrecs
    refine ⟨of t',rfl,htrades,?_,hrecs,?_⟩
    · cases h.routes with
      | last hord => exact ⟨htrades.owns,h.stored t' (mem_singleton_self t'),hord⟩
    have hpaid := h.paid
    simp only [Ins.seps,map_singleton,sum_singleton,length_nil,Nat.zero_mul,Nat.add_zero] at hpaid
    change fill t' + _ ≤ fill t + _ + 1
    omega
  | split left sep right =>
    obtain ⟨t₁,ts',rfl,rfl,hts'⟩ := map_eq_cons_iff.mp hlinks
    obtain ⟨t₂,rfl,rfl⟩ := map_eq_singleton_iff.mp hts'
    simp only [settleRoot,wp_bind]
    refine wp_newNode htrades.sound fun l m' htr hdev hcrc => ?_
    have hown : Owns m.fs (0 + rowBlocks [t₁,t₂]) := by
      rw [zero_add]
      exact htrades.owns
    have hint : (Block.newInternal [sep] ([t₁,t₂].map Tree.label)).IsInternal [sep]
        ([t₁,t₂].map Tree.label) := by
      refine Block.isInternal_newInternal rfl (by simp) (fun s hs => ?_) fun x hx => ?_
      · rw [mem_singleton.mp hs]
        exact ((Routes.seps_ascend (fun _ _ _ => Tree.Ordered.lt) h.routes).2 sep mem_cons_self).2
      · obtain ⟨t,ht,rfl⟩ := mem_map.mp hx
        exact htrades.owns.lt_two_pow htrades.sound (ptr_mem_row ht)
    have hnew := htr.frame hown
    have hblocks : LiberFs.blocks (.node l [sep] [t₁,t₂]) = {l.ptr} + rowBlocks [t₁,t₂] :=
      blocks_node
    rw [zero_add,← hblocks] at hnew
    refine ⟨of (.node l [sep] [t₁,t₂]),rfl,htrades.trans hnew,
      ⟨hnew.owns,stored_node hdev hcrc hint fun t ht => ?_,h.routes⟩,?_,?_⟩
    · exact (h.stored t ht).congr fun b hb =>
        htr.dev_frame hown (Multiset.mem_of_le (blocks_le_row ht) hb)
    · rw [← h.records]
      rfl
    have hpaid := h.paid
    simp only [Ins.seps,map_cons,map_nil,sum_cons,sum_nil,length_singleton,Nat.one_mul] at hpaid
    change (fill t₁ + (fill t₂ + 0) + (2 - 103) * 101 ^ k) + 101 ^ k ≤ fill t + _ + 1
    omega

theorem insertRoot_spec (hrank : Monotone rank) {r : R} {leaf : ℕ → Block → FsM Ins}
    (hleaf : LeafInserts key rank IsLeaf r leaf) {t : Tree Link R k} (hs : m.fs.Sound)
    (h : (of t).Holds key rank IsLeaf m.fs) (hr : rank (key r) < 2 ^ 64) :
    wp (insertNode leaf (rank (key r)) treeDepthMax t.label) (fun out m₁ =>
      wp (settleRoot out) (fun l m' => ∃ root,
        Becomes key rank IsLeaf m.fs (of t) m'.fs l (upsert key r t.records) 1 root)
        (fun _ _ => True) m₁) (fun _ _ => True) m := by
  obtain ⟨ho,hst,hord⟩ := h
  refine (changeNode_spec hrank hleaf
    (fun hbelow ⟨_,hins⟩ hint hmax => hbelow.absorb hins hint hmax) treeDepthMax t hs ho hst hord
    (Nat.zero_le _) hr le_rfl).imp fun out m₁ hins => ?_
  obtain ⟨ts,hins⟩ := hins
  exact settleRoot_spec hins

theorem newLeaf_spec {r : R} {buf : Block} (htype : buf.nodeType = nodeLeaf)
    (hleaf : IsLeaf buf [r])
    (hs : m.fs.Sound) (hr : rank (key r) < 2 ^ 64) :
    wp allocMeta (fun d m₁ => wp tryZeroed (fun _ m₂ => wp (writeNodeTo d buf) (fun l m' => ∃ root,
      Becomes key rank IsLeaf m.fs empty m'.fs l [r] 1 root) (fun _ _ => True) m₂)
      (fun _ _ => True) m₁) (fun _ _ => True) m := by
  refine wp_newNode hs fun l m' htr hdev hcrc => ?_
  have hblocks : LiberFs.blocks (.leaf l [r]) = {l.ptr} := blocks_leaf
  refine ⟨of (.leaf l [r]),rfl,htr,⟨htr.owns,stored_leaf hdev hcrc htype hleaf,?_,?_,?_⟩,rfl,
    Nat.zero_le _⟩
  · exact cons_ne_nil _ _
  · exact pairwise_singleton _ _
  · intro x hx
    rw [mem_singleton.mp hx]
    exact ⟨Nat.zero_le _,hr⟩

theorem collapseFrom_spec (depth : ℕ) (t : Tree Link R k) (hs : m.fs.Sound)
    (ho : Owns m.fs (LiberFs.blocks t)) (hst : Stored IsLeaf m.fs t)
    (hord : Tree.Ordered key rank lo hi t) :
    wp (collapseFrom depth t.label) (fun l m' => ∃ (j : ℕ) (t' : Tree Link R j), t'.label = l ∧
      Trades m.fs (LiberFs.blocks t) m'.fs (LiberFs.blocks t') ∧ Stored IsLeaf m'.fs t' ∧
      Tree.Ordered key rank lo hi t' ∧ t'.records = t.records ∧ (of t').cost ≤ (of t).cost)
      (fun _ _ => True) m := by
  induction depth generalizing k t m with
  | zero => trivial
  | succ depth ih =>
    simp only [collapseFrom,wp_bind]
    rw [wp_readNode hst (ho.pool _ ptr_mem_blocks).2]
    split
    · next hcond =>
      cases k with
      | zero =>
        rw [hst.nodeType,if_pos rfl] at hcond
        exact absurd hcond.1 (by decide)
      | succ k =>
        obtain ⟨l,seps,kids⟩ := t
        obtain ⟨hcrc,hint,hkids⟩ := hst
        have hnil : seps = [] := by
          have := hint.count.symm.trans hcond.2
          exact eq_nil_of_length_eq_zero this
        subst hnil
        cases hord with
        | @last _ _ c hc =>
          have hlink : (m.fs.dev l.ptr).childLink 0 = c.label := hint.link 0 (by simp)
          have hblocks : LiberFs.blocks (.node l [] [c]) = {l.ptr} + LiberFs.blocks c := by
            rw [blocks_node,rowBlocks_singleton]
          rw [hblocks] at ho
          have hdrop := trades_dropBlock hs (ho.mono (Multiset.le_add_right _ _))
          have hdrop' := hdrop.frame ho
          rw [zero_add] at hdrop'
          have hc' : Stored IsLeaf (m.fs.dropBlock l.ptr) c :=
            (hkids c (mem_singleton_self c)).congr fun b hb => hdrop.dev_frame ho hb
          rw [Tree.label_node,hlink]
          refine (ih c hdrop'.sound hdrop'.owns hc' hc).imp fun l' m' h => ?_
          obtain ⟨j,t',hlabel,htrades,hst',hord',hrecs,hcost⟩ := h
          refine ⟨j,t',hlabel,?_,hst',hord',hrecs.trans ?_,hcost.trans ?_⟩
          · rw [hblocks]
            exact hdrop'.trans htrades
          · exact (append_nil _).symm
          have hgrow : Tree.toGrow 101 k ≤ Tree.toGrow 101 (k + 1) := by
            cases k with
            | zero => exact Nat.zero_le _
            | succ k => exact Nat.pow_le_pow_right (by decide) (Nat.le_succ k)
          change fill c + _ ≤ (fill c + 0) + (1 - 103) * 101 ^ k + _
          omega
    · exact ⟨k,t,rfl,Trades.refl hs ho,hst,hord,rfl,le_rfl⟩

theorem settleDel_spec {t : Tree Link R k} {q : K} {out : Del} (hs : fs.Sound)
    (ho : Owns fs (LiberFs.blocks t)) (hst : Stored IsLeaf fs t)
    (hord : Tree.Ordered key rank 0 (2 ^ 64) t)
    (h : Deletes key rank IsLeaf q 0 (2 ^ 64) fs t m.fs out) :
    wp (settleDel t.label out) (fun res m' => (res.2 ↔ ∃ x ∈ t.records, key x = q) ∧
      ∃ root, Becomes key rank IsLeaf fs (of t) m'.fs res.1 (without key q t.records) 0 root)
      (fun _ _ => True) m := by
  cases out with
  | notFound =>
    obtain ⟨hfs,hnot⟩ := h
    refine ⟨iff_of_false Bool.false_ne_true ?_,of t,rfl,?_,?_,(without_eq_self hnot).symm,le_rfl⟩
    · rintro ⟨x,hx,hq⟩
      exact hnot x hx hq
    · rw [hfs]
      exact Trades.refl hs ho
    · rw [hfs]
      exact ⟨ho,hst,hord⟩
  | empty =>
    exact ⟨iff_of_true rfl h.found,empty,rfl,h.trades,trivial,h.records,Nat.zero_le _⟩
  | updated link =>
    obtain ⟨t',rfl,h⟩ := h
    have hmem := mem_singleton_self t'
    have htrades := h.trades
    rw [rowBlocks_singleton] at htrades
    have hrecs := h.records
    rw [flatMap_singleton] at hrecs
    have hpaid := h.paid
    rw [map_singleton,sum_singleton] at hpaid
    simp only [settleDel,collapseRoot,wp_bind,wp_pure]
    refine wp_tryZeroed_of fun m₁ h₁ => ?_
    have hst' := h.stored t' hmem
    rw [← h₁] at htrades hst'
    refine (collapseFrom_spec treeDepthMax t' htrades.sound htrades.owns hst'
      (h.ordered t' hmem)).imp fun l m₂ hc => ?_
    obtain ⟨j,t'',hlabel,htrades',hst'',hord'',hrecs'',hcost⟩ := hc
    refine ⟨iff_of_true trivial h.found,of t'',hlabel,htrades.trans htrades',
      ⟨htrades'.owns,hst'',hord''⟩,hrecs''.trans hrecs,hcost.trans ?_⟩
    change fill t' + _ ≤ fill t + _
    omega

variable (hrank : Monotone rank)
include hrank

theorem deleteRoot_spec {q : K} {leaf : ℕ → Block → FsM Del}
    (hleaf : LeafDeletes key rank IsLeaf q leaf) {root : Root R} (hs : m.fs.Sound)
    (h : root.Holds key rank IsLeaf m.fs) (hq : rank q < 2 ^ 64) :
    wp (if root.link.ptr = 0 then return (⟨0,0⟩, false) else do
        let outcome ← deleteNode leaf (rank q) treeDepthMax root.link
        settleDel root.link outcome) (fun res m' =>
      (res.2 ↔ ∃ x ∈ root.records, key x = q) ∧ ∃ root',
        Becomes key rank IsLeaf m.fs root m'.fs res.1 (without key q root.records) 0 root')
      (fun _ _ => True) m := by
  cases root with
  | empty =>
    refine ⟨iff_of_false Bool.false_ne_true ?_,.empty,rfl,?_,trivial,rfl,le_rfl⟩
    · rintro ⟨x,hx,-⟩
      cases hx
    · exact Trades.refl hs h.owns
  | of t =>
    rw [if_neg h.ne_zero,wp_bind]
    obtain ⟨ho,hst,hord⟩ := h
    exact (changeNode_spec hrank hleaf (fun hbelow hdel hint _ => hbelow.absorbDel hdel hint)
      treeDepthMax t hs ho hst hord (Nat.zero_le _) hq le_rfl).imp fun out m₁ hdel =>
      settleDel_spec hs ho hst hord hdel

theorem descend_eq {α : Type} (f : Block → α) {depth : ℕ}
    {t : Tree Link R k} (hdepth : k < depth) (ho : Owns m.fs (LiberFs.blocks t))
    (hst : Stored IsLeaf m.fs t) (hord : Tree.Ordered key rank lo hi t) {q : K} (hlo : lo ≤ rank q)
    (hhi : rank q < hi) : ∃ b recs, IsLeaf b recs ∧ Ascending key recs ∧
      lookup key q recs = lookup key q t.records ∧
      ∀ (Q : α → Machine → Prop) (E : Fault → Machine → Prop),
        wp (descend f (rank q) depth t.label) Q E m = Q (f b) m := by
  induction depth generalizing k t lo hi with
  | zero => exact absurd hdepth (Nat.not_lt_zero k)
  | succ depth ih =>
    have hread := fun {Q : Block → Machine → Prop} {E : Fault → Machine → Prop} =>
      wp_readNode (Q := Q) (E := E) hst (ho.pool _ ptr_mem_blocks).2
    cases k with
    | zero =>
      refine ⟨m.fs.dev t.1.ptr,t.2,hst.2.2,hord.2.1,rfl,fun Q E => ?_⟩
      simp only [descend,wp_bind,hread]
      rw [if_pos (hst.nodeType.trans (if_pos rfl))]
      rfl
    | succ k =>
      obtain ⟨l,seps,kids⟩ := t
      obtain ⟨c,a,b,hbelow,hlink,hown,hkid,hP,hax,hxb,-⟩ := exists_below hrank ho hst hord hlo hhi
      obtain ⟨-,hint,-⟩ := hst
      obtain ⟨b',recs,hleaf,hasc,hlook,heq⟩ := ih (by omega) hown hkid hP hax hxb
      refine ⟨b',recs,hleaf,hasc,?_,fun Q E => ?_⟩
      · rw [hlook,Tree.records_node hbelow.kid,lookup_append
          (fun x hx => (hbelow.before x hx).ne) fun x hx => (hbelow.after x hx).ne']
      · simp only [descend,wp_bind,hread]
        rw [Tree.label_node,if_neg hint.ne_leaf,hint.routeChild,hlink,heq]

theorem lookupRoot_spec {α : Type} {leaf : Block → Option α}
    {g : Option R → Option α} (hg : g none = none) {root : Root R} {q : K}
    (hleaf : ∀ b recs, IsLeaf b recs → Ascending key recs → leaf b = g (lookup key q recs))
    (h : root.Holds key rank IsLeaf m.fs) (hcost : root.cost < 101 ^ 63) (hq : rank q < 2 ^ 64) :
    wp (if root.link.ptr = 0 then return none else do
        let _ ← tryZeroed
        descend leaf (rank q) treeDepthMax root.link)
      (fun res m' => m'.fs = m.fs ∧ res = g (lookup key q root.records))
      (fun e _ => e = .err .noMemory ∧ m.heap 0 = false) m := by
  cases root with
  | empty => exact ⟨rfl,hg.symm⟩
  | of t =>
    rw [if_neg h.ne_zero]
    obtain ⟨ho,hst,hord⟩ := h
    simp only [wp_bind,wp_tryZeroed]
    split
    · obtain ⟨b,recs,hb,hasc,hlook,heq⟩ :=
        descend_eq (m := { m with heap := fun i => m.heap (i + 1) }) hrank leaf
          (lt_treeDepthMax hcost) ho hst hord (Nat.zero_le _) hq
      refine (heq _ _).mpr ⟨rfl,?_⟩
      rw [hleaf b recs hb hasc,hlook]
      rfl
    · next hheap => exact ⟨trivial,Bool.eq_false_iff.mpr hheap⟩

end Root

end LiberSystem
