import LiberSystem.LiberFs.TreeSpec

/-!
# Insertion into a block tree

The outcome of an insertion below a node is a row of one or two trees in the place of the subtree,
ordered between its bounds, with its records and the new one, and paid for by the one insertion
(`Tree.spare`).
-/

namespace LiberSystem

open List LiberSystem.Tree

open Fallible FsM

namespace Ins

def seps : Ins → List ℕ
  | .updated _ => []
  | .split _ sep _ => [sep]

def links : Ins → List Link
  | .updated link => [link]
  | .split left _ right => [left,right]

end Ins

namespace LiberFs

variable [Checksum] {R K : Type} [LinearOrder K] {key : R → K} {rank : K → ℕ}
  {IsLeaf : Block → List R → Prop} {fs fs' : LiberFs} {k i lo hi : ℕ} {m : Machine}

section Absorb

variable {buf : Block} {ptr : ℕ} {seps : List ℕ} {links : List Link} {out : Ins} {α : Type}
  {ls : List α} {x : α}

def TakesIn (fs : LiberFs) (ptr : ℕ) (seps : List ℕ) (links : List Link) (fs' : LiberFs)
    (out' : Ins) : Prop :=
  ∃ l buf, out' = .updated l ∧ Rewritten fs ptr fs' l buf ∧ buf.IsInternal seps links

/-- The node was full: with the outcome taken in it was cut into two nodes. -/
structure Splits (fs : LiberFs) (ptr : ℕ) (seps : List ℕ) (links : List Link) (fs' : LiberFs)
    (l : Link) (sep : ℕ) (l' : Link) (ss ss' : List ℕ) (ls ls' : List Link) : Prop where
  seps : seps = ss ++ sep :: ss'
  links : links = ls ++ ls'
  length : ls.length = 103
  length' : ls'.length = 102
  trades : Trades fs {ptr} fs' ({l.ptr} + {l'.ptr})
  crc : (fs'.dev l.ptr).crc = l.crc
  crc' : (fs'.dev l'.ptr).crc = l'.crc
  internal : (fs'.dev l.ptr).IsInternal ss ls
  internal' : (fs'.dev l'.ptr).IsInternal ss' ls'

omit [Checksum] in
theorem map_sepKey (h : buf.IsInternal seps links) :
    (List.range buf.internalCount).map buf.sepKey = seps := by
  apply ext_getElem
  · rw [length_map,length_range,h.internalCount]
  · intro j _ hj
    rw [getElem_map,getElem_range,h.sep j hj]

omit [Checksum] in
theorem map_childLink (h : buf.IsInternal seps links) :
    (List.range (buf.internalCount + 1)).map buf.childLink = links := by
  apply ext_getElem
  · rw [length_map,length_range,h.internalCount,h.length]
  · intro j _ hj
    rw [getElem_map,getElem_range,h.link j hj]

omit [Checksum] in
theorem set_eq_row (h : i < ls.length) : ls.set i x = ls.take i ++ [x] ++ ls.drop (i + 1) := by
  rw [set_eq_take_append_cons_drop,if_pos h,append_assoc,singleton_append]

omit [Checksum] in
theorem insertIdx_set_eq_row {y : α} (h : i < ls.length) :
    (ls.set i x).insertIdx (i + 1) y = ls.take i ++ [x,y] ++ ls.drop (i + 1) := by
  have hlen : (ls.take i ++ [x]).length = i + 1 := by
    rw [length_append,length_take,length_singleton]
    omega
  rw [insertIdx_eq_append (by rw [length_set]; omega),set_eq_row h,take_left' hlen,drop_left' hlen,
    append_assoc,append_assoc]
  rfl

theorem absorb_room (hs : m.fs.Sound) (ho : Owns m.fs {ptr}) (h : buf.IsInternal seps links)
    (hi : i ≤ seps.length) (hsep : ∀ s ∈ out.seps, s < 2 ^ 64)
    (hptr : ∀ l ∈ out.links, l.ptr < 2 ^ 64) (hroom : seps.length + out.seps.length ≤ 203) :
    wp (internalAbsorb buf ptr i out) (fun out' m' =>
      TakesIn m.fs ptr (seps.take i ++ out.seps ++ seps.drop i)
        (links.take i ++ out.links ++ links.drop (i + 1)) m'.fs out') (fun _ _ => True) m := by
  have hlen := h.length
  cases out with
  | updated link =>
    have hset := h.setChild (i := i) (by omega) (hptr link mem_cons_self)
    rw [set_eq_row (by omega)] at hset
    simp only [internalAbsorb,wp_bind,wp_pure]
    refine wp_rewrite hs ho fun l m' hw => ⟨l,_,rfl,hw,?_⟩
    rwa [Ins.seps,append_nil,take_append_drop]
  | split left sep right =>
    simp only [Ins.seps,length_singleton] at hroom
    have hgrow := h.grow hi (by omega) (hsep sep mem_cons_self) (hptr left mem_cons_self)
        (hptr right (mem_cons_of_mem _ mem_cons_self))
    rw [insertIdx_eq_append hi,insertIdx_set_eq_row (by omega)] at hgrow
    have hcount : buf.internalCount + 2 ≤ internalMax := by
      rw [h.internalCount]
      change seps.length + 2 ≤ 204
      omega
    rw [internalAbsorb,if_pos hcount,h.internalCount]
    simp only [wp_bind,wp_pure]
    refine wp_rewrite hs ho fun l m' hw => ⟨l,_,rfl,hw,?_⟩
    rwa [Ins.seps,append_assoc,singleton_append]

theorem wp_writeTwo {d d' : ℕ} {lbuf rbuf : Block} {Q : Link → Link → Machine → Prop}
    (hs : m.fs.Sound) (ho : Owns m.fs ({d} + {d'})) (hd : m.fs.standing d = .fresh)
    (hd' : m.fs.standing d' = .fresh)
    (hQ : ∀ l l' m', Trades m.fs ({d} + {d'}) m'.fs ({l.ptr} + {l'.ptr}) →
      m'.fs.dev l.ptr = lbuf → lbuf.crc = l.crc → m'.fs.dev l'.ptr = rbuf → rbuf.crc = l'.crc →
      Q l l' m') :
    wp (writeNodeTo d lbuf) (fun l m' => wp (writeNodeTo d' rbuf) (Q l) (fun _ _ => True) m')
      (fun _ _ => True) m := by
  refine wp_writeNodeTo hs (ho.mono (Multiset.le_add_right _ _)) hd fun l m₁ hl hw => ?_
  subst hl
  have hw₁ := hw.trades.frame ho
  have hfresh : m₁.fs.standing d' = .fresh := by
    rw [hw.trades.same d' Iff.rfl,hd']
  refine wp_writeNodeTo hw₁.sound (hw₁.owns.mono (Multiset.le_add_left _ _)) hfresh
    fun l' m₂ hl' hw' => ?_
  subst hl'
  have hown := hw₁.owns
  rw [add_comm] at hown
  have hw₂ := hw'.trades.frame hown
  rw [add_comm] at hw₂
  refine hQ l l' m₂ (hw₁.trans hw₂) ?_ hw.crc hw'.dev hw'.crc
  rw [hw'.trades.dev_frame hown (Multiset.mem_singleton_self _),hw.dev]

omit [Checksum] in
theorem wp_twoDests {Q : ℕ → ℕ → Machine → Prop} (hs : m.fs.Sound) (ho : Owns m.fs {ptr})
    (hQ : ∀ d d' m', Trades m.fs {ptr} m'.fs ({d} + {d'}) → m'.fs.standing d = .fresh →
      m'.fs.standing d' = .fresh → Q d d' m') :
    wp (nodeDest ptr) (fun d m' => wp allocMeta (Q d) (fun _ _ => True) m')
      (fun _ _ => True) m := by
  refine (nodeDest_spec hs ho).imp fun d m₁ hd => ?_
  obtain ⟨htrade,hfresh,-⟩ := hd
  refine (allocMeta_spec htrade.sound).imp fun d' m₂ hd' => ?_
  obtain ⟨hgain,-⟩ := hd'
  have hgain' := hgain.frame (by rw [zero_add]; exact htrade.owns)
  rw [zero_add,add_comm] at hgain'
  have hnot : d ∉ (0 : Multiset ℕ) ∧ d ∉ ({d'}) :=
    hgain.disjoint (by rw [zero_add]; exact htrade.owns) (Multiset.mem_singleton_self d)
  refine hQ d d' m₂ (htrade.trans hgain') ?_ ?_
  · rw [hgain.same d (iff_of_false hnot.1 hnot.2),hfresh]
  · exact (hgain.gain d' (Multiset.notMem_zero d') (Multiset.mem_singleton_self d')).2

theorem absorb_full {left right : Link} {sep : ℕ} (hs : m.fs.Sound) (ho : Owns m.fs {ptr})
    (h : buf.IsInternal seps links) (hi : i ≤ seps.length)
    (hsep : ∀ s ∈ seps.take i ++ [sep] ++ seps.drop i, s < 2 ^ 64)
    (hptr : ∀ l ∈ links.take i ++ [left,right] ++ links.drop (i + 1), l.ptr < 2 ^ 64)
    (hfull : seps.length = 203) :
    wp (internalAbsorb buf ptr i (.split left sep right)) (fun out' m' =>
      ∃ l s l' ss ss' ls ls', out' = .split l s l' ∧
        Splits m.fs ptr (seps.take i ++ [sep] ++ seps.drop i)
          (links.take i ++ [left,right] ++ links.drop (i + 1)) m'.fs l s l' ss ss' ls ls')
      (fun _ _ => True) m := by
  have hlen := h.length
  have hcount : ¬buf.internalCount + 2 ≤ internalMax := by
    rw [h.internalCount,hfull]
    decide
  rw [internalAbsorb,if_neg hcount,map_sepKey h,map_childLink h,insertIdx_eq_append hi,
    insertIdx_set_eq_row (by omega)]
  set row := links.take i ++ [left,right] ++ links.drop (i + 1) with hrow
  have hrowlen : row.length = 205 := by
    simp only [hrow,length_append,length_take,length_drop,length_cons,length_nil]
    omega
  have hassoc : seps.take i ++ sep :: seps.drop i = seps.take i ++ [sep] ++ seps.drop i := by
    rw [append_assoc,singleton_append]
  rw [hassoc]
  set srow := seps.take i ++ [sep] ++ seps.drop i with hsrow
  have hslen : srow.length = 204 := by
    simp only [hsrow,length_append,length_take,length_drop,length_cons,length_nil]
    omega
  have hmid : srow.length / 2 = 102 := by omega
  simp only [hmid,wp_bind,wp_pure]
  refine wp_twoDests hs ho fun d d' m₂ htrade hfresh hfresh' => ?_
  refine wp_tryZeroed_of fun m₃ h₃ => ?_
  refine wp_tryZeroed_of fun m₄ h₄ => ?_
  rw [← h₃,← h₄] at htrade hfresh hfresh'
  refine wp_writeTwo htrade.sound htrade.owns hfresh hfresh' ?_
  intro l l' m₅ hw hdev hcrc hdev' hcrc'
  have htake : ∀ x ∈ row.take 103, x.ptr < 2 ^ 64 := fun x hx => hptr x (mem_of_mem_take hx)
  have hdrop : ∀ x ∈ row.drop 103, x.ptr < 2 ^ 64 := fun x hx => hptr x (mem_of_mem_drop hx)
  refine ⟨l,_,l',srow.take 102,srow.drop 103,row.take 103,row.drop 103,rfl,?_⟩
  refine ⟨?_,(take_append_drop 103 row).symm,?_,?_,htrade.trans hw,
    by rw [hdev,hcrc],by rw [hdev',hcrc'],?_,?_⟩
  · rw [getD_eq_getElem _ _ (by omega),← drop_eq_getElem_cons (by omega),take_append_drop]
  · rw [length_take]
    omega
  · rw [length_drop]
    omega
  · rw [hdev]
    refine Block.isInternal_newInternal ?_ ?_ (fun s hs => hsep s (mem_of_mem_take hs)) htake
    · rw [length_take,length_take]
      omega
    · rw [length_take]
      omega
  · rw [hdev']
    refine Block.isInternal_newInternal ?_ ?_ (fun s hs => hsep s (mem_of_mem_drop hs)) hdrop
    · rw [length_drop,length_drop]
      omega
    · rw [length_drop]
      omega

end Absorb

/-- How far a tree is filled beyond what splits leave: 103 and 102 of 205 kids. -/
def fill (t : Tree Link R k) : ℕ := t.spare 103 101

variable (IsLeaf key rank) in
/-- The row `ts` is what the insertion of `r` made of the subtree `t`. -/
structure Inserted (r : R) (lo hi : ℕ) (fs : LiberFs) (t : Tree Link R k) (fs' : LiberFs)
    (out : Ins) (ts : List (Tree Link R k)) : Prop where
  links : ts.map Tree.label = out.links
  trades : Trades fs (blocks t) fs' (rowBlocks ts)
  stored : ∀ t ∈ ts, Stored IsLeaf fs' t
  routes : Routes (Tree.Ordered key rank) lo out.seps ts hi
  records : ts.flatMap Tree.records = upsert key r t.records
  paid : (ts.map fill).sum + out.seps.length * 101 ^ k ≤ fill t + 1

variable (IsLeaf key rank) in
/-- On a leaf in which `q` has its place `leaf` does what `Does` says. -/
def LeafDoes {Out : Type} (q : K)
    (Does : ∀ k, ℕ → ℕ → LiberFs → Tree Link R k → LiberFs → Out → Prop)
    (leaf : ℕ → Block → FsM Out) : Prop :=
  ∀ (m : Machine) (l : Link) (recs : List R) (lo hi : ℕ), m.fs.Sound → Owns m.fs {l.ptr} →
    Stored IsLeaf m.fs (.leaf l recs) → Tree.Ordered key rank lo hi (.leaf l recs) →
    lo ≤ rank q → rank q < hi → hi ≤ 2 ^ 64 →
    wp (leaf l.ptr (m.fs.dev l.ptr)) (fun out m' => Does 0 lo hi m.fs (.leaf l recs) m'.fs out)
      (fun _ _ => True) m

variable (IsLeaf key rank) in
def LeafInserts (r : R) : (ℕ → Block → FsM Ins) → Prop :=
  LeafDoes key rank IsLeaf (key r) fun k lo hi fs (t : Tree Link R k) fs' out =>
    ∃ ts, Inserted key rank IsLeaf r lo hi fs t fs' out ts

omit [Checksum] in
theorem ptr_mem_row {t : Tree Link R k} {ts : List (Tree Link R k)} (h : t ∈ ts) :
    t.label.ptr ∈ rowBlocks ts :=
  Multiset.mem_of_le (blocks_le_row h) ptr_mem_blocks

omit [Checksum] in
theorem Owns.lt_two_pow {A : Multiset ℕ} {b : ℕ} (h : Owns fs A) (hs : fs.Sound) (hb : b ∈ A) :
    b < 2 ^ 64 := by
  have h₁ := (h.pool b hb).2
  have h₂ : fs.numBlocks ≤ 2 ^ 40 := hs.numBlocks_le
  exact (h₁.trans_le h₂).trans (by decide)

omit [Checksum] in
theorem links_row {kids ts : List (Tree Link R k)} {out : Ins} (h : ts.map label = out.links) :
    (kids.map label).take i ++ out.links ++ (kids.map label).drop (i + 1) =
      (kids.take i ++ ts ++ kids.drop (i + 1)).map label := by
  rw [map_append,map_append,map_take,map_drop,h]

section Node

variable {r : R} {q : K} {l l' : Link} {seps ss : List ℕ} {kids ts : List (Tree Link R k)}
  {c : Tree Link R k} {a b : ℕ} {fs₁ fs₂ : LiberFs} {out out' : Ins} {buf : Block}

/-- What is known of a node below which the key `q` has its place: the kid that it is
routed to and the row that may stand in its place. -/
structure Below (key : R → K) (rank : K → ℕ) (IsLeaf : Block → List R → Prop) (q : K)
    (lo hi : ℕ) (fs : LiberFs) (l : Link) (seps : List ℕ) (kids : List (Tree Link R k)) (i : ℕ)
    (c : Tree Link R k) (a b : ℕ) : Prop where
  owns : Owns fs (blocks (.node l seps kids))
  stored : ∀ t ∈ kids, Stored IsLeaf fs t
  ordered : Tree.Ordered key rank lo hi (.node l seps kids)
  index : i ≤ seps.length
  kid : kids[i]? = some c
  before : ∀ x ∈ (kids.take i).flatMap Tree.records, key x < q
  after : ∀ x ∈ (kids.drop (i + 1)).flatMap Tree.records, q < key x
  hole : ∀ ss ts, Routes (Tree.Ordered key rank) a ss ts b →
    Tree.Ordered key rank lo hi
      (.node l (seps.take i ++ ss ++ seps.drop i) (kids.take i ++ ts ++ kids.drop (i + 1)))

theorem exists_below (hrank : Monotone rank) (ho : Owns fs (blocks (.node l seps kids)))
    (hst : Stored IsLeaf fs (.node l seps kids))
    (hord : Tree.Ordered key rank lo hi (.node l seps kids)) (hlo : lo ≤ rank q)
    (hhi : rank q < hi) :
    ∃ c a b, Below key rank IsLeaf q lo hi fs l seps kids (route seps (rank q)) c a b ∧
      (fs.dev l.ptr).childLink (route seps (rank q)) = c.label ∧ Owns fs (blocks c) ∧
      Stored IsLeaf fs c ∧ Tree.Ordered key rank a b c ∧ a ≤ rank q ∧ rank q < b ∧ b ≤ hi := by
  obtain ⟨-,hint,hkids⟩ := hst
  obtain ⟨a,b,c,hc,hP,hax,hxb,hbh,hbefore,hafter,hole⟩ := hord.cut hrank hlo hhi
  obtain ⟨hi',rfl⟩ := List.getElem?_eq_some_iff.mp hc
  refine ⟨_,a,b,⟨ho,hkids,hord,route_le,hc,hbefore,hafter,hole⟩,?_,ho.mono ?_,
    hkids _ (getElem_mem hi'),hP,hax,hxb,hbh⟩
  · rw [hint.link _ (by rwa [length_map]),getElem_map]
  · rw [blocks_cut hc]
    exact Multiset.le_add_right _ _

section

variable (h : Below key rank IsLeaf q lo hi fs l seps kids i c a b) {N : Multiset ℕ}

include h

theorem Below.frame (ht : Trades fs (blocks c) fs₁ N) :
    Owns fs₁ (N + ({l.ptr} + (rowBlocks (kids.take i) + rowBlocks (kids.drop (i + 1))))) :=
  (ht.frame (blocks_cut h.kid ▸ h.owns)).owns

theorem Below.ownsSelf (ht : Trades fs (blocks c) fs₁ N) : Owns fs₁ {l.ptr} :=
  (h.frame ht).mono ((Multiset.le_add_right _ _).trans (Multiset.le_add_left _ _))

theorem Below.rewritten (hc : Trades fs (blocks c) fs₁ (rowBlocks ts))
    (hts : ∀ t ∈ ts, Stored IsLeaf fs₁ t) (hw : Rewritten fs₁ l.ptr fs₂ l' buf)
    (hint : buf.IsInternal ss ((kids.take i ++ ts ++ kids.drop (i + 1)).map label)) :
    Trades fs (blocks (.node l seps kids)) fs₂
        (rowBlocks [.node l' ss (kids.take i ++ ts ++ kids.drop (i + 1))]) ∧
      ∀ t ∈ [.node l' ss (kids.take i ++ ts ++ kids.drop (i + 1))], Stored IsLeaf fs₂ t := by
  refine ⟨?_,fun t ht => ?_⟩
  · rw [rowBlocks_singleton,blocks_node (l := l')]
    exact trades_row h.owns h.kid hc hw.trades
  · rw [mem_singleton.mp ht]
    exact stored_node hw.dev hw.crc hint (stored_row h.owns h.kid hc hw.trades h.stored hts)

end

section

variable (h : Below key rank IsLeaf (key r) lo hi fs l seps kids i c a b)

include h

section

variable (hins : Inserted key rank IsLeaf r a b fs c fs₁ out ts)
include hins

theorem Below.records : (kids.take i ++ ts ++ kids.drop (i + 1)).flatMap records =
      upsert key r (records (.node l seps kids)) := by
  rw [records_node h.kid,upsert_append h.before h.after,← hins.records,flatMap_append,
    flatMap_append]

theorem Below.takesIn (htake : TakesIn fs₁ l.ptr (seps.take i ++ out.seps ++ seps.drop i)
      ((kids.map label).take i ++ out.links ++ (kids.map label).drop (i + 1)) fs₂ out') :
    ∃ ts' : List (Tree Link R (k + 1)),
      Inserted key rank IsLeaf r lo hi fs (.node l seps kids) fs₂ out' ts' := by
  obtain ⟨l',buf,rfl,hw,hint⟩ := htake
  rw [links_row hins.links] at hint
  obtain ⟨htrades,hstored⟩ := h.rewritten hins.trades hins.stored hw hint
  refine ⟨_,rfl,htrades,hstored,.last (h.hole _ _ hins.routes),?_,?_⟩
  · rw [flatMap_singleton,← h.records hins]
    rfl
  have hpaid : fill (.node l' (seps.take i ++ out.seps ++ seps.drop i)
      (kids.take i ++ ts ++ kids.drop (i + 1))) ≤ fill (.node l seps kids) + 1 :=
    spare_replace h.kid hins.routes.length hins.paid
  change _ + 0 * _ ≤ _
  rw [Nat.zero_mul,Nat.add_zero]
  exact hpaid

theorem Below.splits {l₁ l₂ : Link} {s : ℕ}
    {ss₁ ss₂ : List ℕ} {ls₁ ls₂ : List Link} (hfull : kids.length = 204)
    (hsplit : Splits fs₁ l.ptr (seps.take i ++ out.seps ++ seps.drop i)
      ((kids.map label).take i ++ out.links ++ (kids.map label).drop (i + 1)) fs₂
      l₁ s l₂ ss₁ ss₂ ls₁ ls₂) :
    ∃ ts' : List (Tree Link R (k + 1)),
      Inserted key rank IsLeaf r lo hi fs (.node l seps kids) fs₂ (.split l₁ s l₂) ts' := by
  have hlinks := hsplit.links
  rw [links_row hins.links] at hlinks
  have htrades := trades_row h.owns h.kid hins.trades hsplit.trades
  have hstored := stored_row h.owns h.kid hins.trades hsplit.trades h.stored hins.stored
  have hord := h.hole _ _ hins.routes
  have hrecs := h.records hins
  rw [hsplit.seps] at hord
  set row := kids.take i ++ ts ++ kids.drop (i + 1) with hrow
  have hls₁ : (row.take 103).map label = ls₁ := by
    rw [map_take,hlinks,take_left' hsplit.length]
  have hls₂ : (row.drop 103).map label = ls₂ := by
    rw [map_drop,hlinks,drop_left' hsplit.length]
  have hlen₁ : (row.take 103).length = 103 := by
    have := congrArg List.length hls₁
    rwa [length_map,hsplit.length] at this
  have hlen₂ : (row.drop 103).length = 102 := by
    have := congrArg List.length hls₂
    rwa [length_map,hsplit.length'] at this
  have hcut : row = row.take 103 ++ row.drop 103 := (take_append_drop 103 row).symm
  have hroutes : Routes (Tree.Ordered key rank) lo (ss₁ ++ s :: ss₂)
      (row.take 103 ++ row.drop 103) hi := by
    rw [← hcut]
    exact hord
  rw [Routes.append_iff (by rw [← hsplit.internal.length,hlen₁,hsplit.length])] at hroutes
  let t₁ : Tree Link R (k + 1) := .node l₁ ss₁ (row.take 103)
  let t₂ : Tree Link R (k + 1) := .node l₂ ss₂ (row.drop 103)
  refine ⟨[t₁,t₂],rfl,?_,?_,.cons hroutes.1 (.last hroutes.2),?_,?_⟩
  · have hblocks : rowBlocks [t₁,t₂] = {l₁.ptr} + {l₂.ptr} + rowBlocks row := by
      conv_rhs => rw [hcut]
      rw [← singleton_append,rowBlocks_append,rowBlocks_singleton,rowBlocks_singleton,blocks_node,
        blocks_node,rowBlocks_append]
      ac_rfl
    rw [hblocks]
    exact htrades
  · intro t ht
    rcases mem_cons.mp ht with rfl | ht
    · exact ⟨hsplit.crc,hls₁ ▸ hsplit.internal,fun t ht => hstored t (mem_of_mem_take ht)⟩
    · rw [mem_singleton.mp ht]
      exact ⟨hsplit.crc',hls₂ ▸ hsplit.internal',fun t ht => hstored t (mem_of_mem_drop ht)⟩
  · rw [flatMap_cons,flatMap_singleton,← hrecs]
    conv_rhs => rw [hcut]
    rw [flatMap_append]
    rfl
  · have hpaid : fill t₁ + fill t₂ + 101 ^ (k + 1) ≤ fill (.node l seps kids) + 1 :=
      spare_split h.kid hins.paid hcut hfull (by omega) (by omega)
    change fill t₁ + fill t₂ + 1 * _ ≤ _
    rw [Nat.one_mul]
    exact hpaid

end

theorem Below.absorb (hins : Inserted key rank IsLeaf r a b fs c m.fs out ts)
    (hint : buf.IsInternal seps (kids.map label)) (hmax : hi ≤ 2 ^ 64) :
    wp (internalAbsorb buf l.ptr i out) (fun out' m' => ∃ ts' : List (Tree Link R (k + 1)),
      Inserted key rank IsLeaf r lo hi fs (.node l seps kids) m'.fs out' ts')
      (fun _ _ => True) m := by
  have hptr := h.ownsSelf hins.trades
  have hi' := h.index
  have hord := h.hole _ _ hins.routes
  have hseps : ∀ s ∈ seps.take i ++ out.seps ++ seps.drop i, s < 2 ^ 64 := fun s hs =>
    ((Routes.seps_ascend (fun _ _ _ => Tree.Ordered.lt) hord).2 s hs).2.trans_le hmax
  have hlinks : ∀ x ∈ (kids.map label).take i ++ out.links ++
      (kids.map label).drop (i + 1), x.ptr < 2 ^ 64 := fun x hx => by
    rw [links_row hins.links] at hx
    obtain ⟨t,ht,rfl⟩ := mem_map.mp hx
    refine (h.frame hins.trades).lt_two_pow hins.trades.sound ?_
    have := ptr_mem_row ht
    rw [rowBlocks_append,rowBlocks_append] at this
    simp only [Multiset.mem_add] at this ⊢
    tauto
  have hlen := hint.length
  have hfits := hint.fits
  rw [length_map] at hlen
  by_cases hroom : seps.length + out.seps.length ≤ 203
  · have hmem : ∀ {α : Type} {x : α} {xs ys zs : List α}, x ∈ ys → x ∈ xs ++ ys ++ zs :=
      fun hx => mem_append_left _ (mem_append_right _ hx)
    refine (absorb_room hins.trades.sound hptr hint hi' (fun s hs => hseps s (hmem hs))
      (fun x hx => hlinks x (hmem hx)) hroom).imp fun out' m' htake => ?_
    exact h.takesIn hins htake
  cases out with
  | updated link => exact absurd hfits hroom
  | split left sep right =>
    have hfull : seps.length = 203 := by
      change ¬seps.length + 1 ≤ 203 at hroom
      omega
    refine (absorb_full hins.trades.sound hptr hint hi' hseps hlinks hfull).imp
      fun out' m' hsplit => ?_
    obtain ⟨l₁,s,l₂,ss₁,ss₂,ls₁,ls₂,rfl,hsplit⟩ := hsplit
    exact h.splits hins (by omega) hsplit

end

/-- What holds on a leaf, and of a node if it holds of the kid, holds of every tree. -/
theorem changeNode_spec (hrank : Monotone rank) {Out : Type}
    {Does : ∀ k, ℕ → ℕ → LiberFs → Tree Link R k → LiberFs → Out → Prop}
    {leaf : ℕ → Block → FsM Out} {absorb : Block → ℕ → ℕ → Out → FsM Out}
    (hleaf : LeafDoes key rank IsLeaf q Does leaf)
    (habsorb : ∀ {m : Machine} {fs buf l i lo hi k seps a b out} {kids : List (Tree Link R k)} {c},
      Below key rank IsLeaf q lo hi fs l seps kids i c a b → Does k a b fs c m.fs out →
      buf.IsInternal seps (kids.map label) → hi ≤ 2 ^ 64 → wp (absorb buf l.ptr i out)
        (fun out' m' => Does (k + 1) lo hi fs (.node l seps kids) m'.fs out') (fun _ _ => True) m)
    (depth : ℕ) (t : Tree Link R k) (hs : m.fs.Sound) (ho : Owns m.fs (blocks t))
    (hst : Stored IsLeaf m.fs t) (hord : Tree.Ordered key rank lo hi t) (hlo : lo ≤ rank q)
    (hhi : rank q < hi) (hmax : hi ≤ 2 ^ 64) :
    wp (changeNode leaf absorb (rank q) depth t.label)
      (fun out m' => Does k lo hi m.fs t m'.fs out) (fun _ _ => True) m := by
  induction depth generalizing k t m lo hi with
  | zero => trivial
  | succ depth ih =>
    simp only [changeNode,wp_bind]
    refine wp_tryZeroed_of fun m₁ h₁ => ?_
    rw [← h₁] at hs ho hst ⊢
    rw [wp_readNode hst (ho.pool _ ptr_mem_blocks).2]
    cases k with
    | zero =>
      rw [if_pos (hst.nodeType.trans (if_pos rfl))]
      exact hleaf m₁ t.1 t.2 lo hi hs ho hst hord hlo hhi hmax
    | succ k =>
      obtain ⟨l,seps,kids⟩ := t
      obtain ⟨c,a,b,hbelow,hlink,hown,hkid,hP,hax,hxb,hbh⟩ := exists_below hrank ho hst hord hlo hhi
      obtain ⟨-,hint,-⟩ := hst
      rw [label_node,if_neg hint.ne_leaf]
      simp only [wp_bind,wp_check,hint.routeChild,hlink]
      split
      · exact (ih c hs hown hkid hP hax hxb (hbh.trans hmax)).imp fun out m₂ hdoes =>
          habsorb hbelow hdoes hint hmax
      · trivial

end Node

end LiberFs

end LiberSystem
