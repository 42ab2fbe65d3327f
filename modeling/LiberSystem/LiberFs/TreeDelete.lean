import LiberSystem.LiberFs.TreeInsert

/-!
# Deletion from a block tree

A deletion below a node leaves the subtree as it is, rewrites it, or empties it.
-/

namespace LiberSystem

open List LiberSystem.Tree

open Fallible FsM

namespace LiberFs

variable [Checksum] {R K : Type} [LinearOrder K] {key : R → K} {rank : K → ℕ}
  {IsLeaf : Block → List R → Prop} {fs fs₁ fs₂ : LiberFs} {k i lo hi : ℕ} {m : Machine} {q : K}

variable (key rank IsLeaf) in
/-- The row `ts`, of one tree or none, is what the deletion of `q` left of the subtree
`t`, where it was found. -/
structure Deleted (q : K) (lo hi : ℕ) (fs : LiberFs) (t : Tree Link R k) (fs' : LiberFs)
    (ts : List (Tree Link R k)) : Prop where
  trades : Trades fs (blocks t) fs' (rowBlocks ts)
  stored : ∀ t ∈ ts, Stored IsLeaf fs' t
  ordered : ∀ t ∈ ts, Tree.Ordered key rank lo hi t
  found : ∃ x ∈ t.records, key x = q
  records : ts.flatMap Tree.records = without key q t.records
  paid : (ts.map fill).sum ≤ fill t

variable (key rank IsLeaf) in
def Deletes (q : K) (lo hi : ℕ) (fs : LiberFs) (t : Tree Link R k) (fs' : LiberFs) : Del → Prop
  | .notFound => fs' = fs ∧ ∀ x ∈ t.records, key x ≠ q
  | .updated link => ∃ t', t'.label = link ∧ Deleted key rank IsLeaf q lo hi fs t fs' [t']
  | .empty => Deleted key rank IsLeaf q lo hi fs t fs' []

variable (key rank IsLeaf) in
def LeafDeletes (q : K) : (ℕ → Block → FsM Del) → Prop :=
  LeafDoes key rank IsLeaf q fun k lo hi fs (t : Tree Link R k) =>
    Deletes key rank IsLeaf q lo hi fs t

section Node

variable {l : Link} {seps : List ℕ} {kids ts : List (Tree Link R k)} {c : Tree Link R k} {a b : ℕ}
  {buf : Block}

section

variable (h : Below key rank IsLeaf q lo hi fs l seps kids i c a b)

include h

section

variable (hdel : Deleted key rank IsLeaf q a b fs c fs₁ ts)
include hdel

theorem Below.remaining : (kids.take i ++ ts ++ kids.drop (i + 1)).flatMap Tree.records =
      without key q (node l seps kids).records := by
  rw [records_node h.kid,without_append (fun x hx => (h.before x hx).ne)
    (fun x hx => (h.after x hx).ne'),← hdel.records,flatMap_append,flatMap_append]

theorem Below.found : ∃ x ∈ (node l seps kids).records, key x = q := by
  obtain ⟨x,hx,hq⟩ := hdel.found
  refine ⟨x,?_,hq⟩
  rw [records_node h.kid]
  exact mem_append_left _ (mem_append_right _ hx)

theorem Below.deletes {l' : Link} {ss : List ℕ} (hw : Rewritten fs₁ l.ptr fs₂ l' buf)
    (hint : buf.IsInternal ss ((kids.take i ++ ts ++ kids.drop (i + 1)).map label))
    (hord : Tree.Ordered key rank lo hi (.node l ss (kids.take i ++ ts ++ kids.drop (i + 1))))
    (hpaid : fill (.node l' ss (kids.take i ++ ts ++ kids.drop (i + 1))) ≤
      fill (.node l seps kids)) :
    Deletes key rank IsLeaf q lo hi fs (.node l seps kids) fs₂ (.updated l') := by
  obtain ⟨htrades,hstored⟩ := h.rewritten hdel.trades hdel.stored hw hint
  refine ⟨_,rfl,htrades,hstored,fun t ht => ?_,h.found hdel,?_,?_⟩
  · rw [mem_singleton.mp ht]
    exact hord
  · rw [flatMap_singleton,← h.remaining hdel]
    rfl
  · exact hpaid

end

theorem Below.absorbDel {out : Del} (hdel : Deletes key rank IsLeaf q a b fs c m.fs out)
    (hint : buf.IsInternal seps (kids.map label)) :
    wp (internalAbsorbDel buf l.ptr i out) (fun out' m' =>
      Deletes key rank IsLeaf q lo hi fs (.node l seps kids) m'.fs out') (fun _ _ => True) m := by
  obtain ⟨hi',-⟩ := List.getElem?_eq_some_iff.mp h.kid
  cases out with
  | notFound =>
    obtain ⟨hfs,hnot⟩ := hdel
    refine ⟨hfs,?_⟩
    rw [records_node h.kid,forall_mem_append,forall_mem_append]
    exact ⟨⟨fun x hx => (h.before x hx).ne,hnot⟩,fun x hx => (h.after x hx).ne'⟩
  | updated link =>
    obtain ⟨t',rfl,hdel⟩ := hdel
    have hlt : t'.label.ptr < 2 ^ 64 := hdel.trades.owns.lt_two_pow hdel.trades.sound <|
      ptr_mem_row (mem_singleton_self t')
    have hset := hint.setChild (by rwa [length_map]) hlt
    rw [set_eq_row (by rwa [length_map]),← map_take,← map_drop,← map_singleton,← map_append,
      ← map_append] at hset
    have hord := h.hole [] [t'] (.last (hdel.ordered t' (mem_singleton_self t')))
    rw [append_nil,take_append_drop] at hord
    simp only [internalAbsorbDel,wp_bind,wp_pure]
    refine wp_rewrite hdel.trades.sound (h.ownsSelf hdel.trades) fun l' m' hw => ?_
    have hpaid : fill (.node l' seps (kids.take i ++ [t'] ++ kids.drop (i + 1))) ≤
        fill (.node l seps kids) + 0 :=
      spare_replace h.kid (n := 0) rfl (by rw [Nat.zero_mul]; exact hdel.paid)
    exact h.deletes hdel hw hset hord hpaid
  | empty =>
    have hlen : kids.length = seps.length + 1 := Routes.length h.ordered
    simp only [internalAbsorbDel,hint.internalCount,wp_ite,wp_bind,wp_pure]
    split
    · next hnil =>
      -- the only child emptied: the node goes with it
      have hdrop := trades_dropBlock hdel.trades.sound (h.ownsSelf hdel.trades)
      have htrades := trades_row h.owns h.kid hdel.trades hdrop
      have hrecs := h.remaining hdel
      have hrow : kids.take i ++ [] ++ kids.drop (i + 1) = [] := by
        have := h.index
        apply eq_nil_of_length_eq_zero
        simp only [length_append,length_take,length_drop,length_nil]
        omega
      rw [hrow] at htrades hrecs
      exact ⟨htrades,(fun t ht => nomatch ht),(fun t ht => nomatch ht),h.found hdel,hrecs,
        Nat.zero_le _⟩
    · next hne =>
      have hne : seps ≠ [] := fun h => hne (by rw [h]; rfl)
      have hshrink := hint.shrink hne h.index
      have hrow : kids.eraseIdx i = kids.take i ++ [] ++ kids.drop (i + 1) := by
        rw [append_nil,eraseIdx_eq_take_drop_succ]
      have hord : Tree.Ordered key rank lo hi (.node l _ (kids.eraseIdx i)) :=
        Routes.eraseIdx (fun _ _ _ => Tree.Ordered.lt) (fun _ _ _ _ h hle => h.lower hle)
          (fun _ _ _ _ h hle => h.raise hle) h.ordered hne h.index
      have hmap : (kids.map label).eraseIdx i = (kids.eraseIdx i).map label := by
        rw [eraseIdx_eq_take_drop_succ,eraseIdx_eq_take_drop_succ,map_append,map_take,map_drop]
      rw [hmap] at hshrink
      refine wp_rewrite hdel.trades.sound (h.ownsSelf hdel.trades) fun l' m' hw => ?_
      refine h.deletes hdel hw (hrow ▸ hshrink) (hrow ▸ hord) ?_
      rw [← hrow]
      exact spare_eraseIdx h.kid

end

end Node

end LiberFs

end LiberSystem
