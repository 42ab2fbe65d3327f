import Mathlib.Algebra.BigOperators.Fin
import Mathlib.Algebra.Order.BigOperators.Group.Finset
import Mathlib.Data.List.GetD

/-!
# Sums over components and over lists

A system of components is a function `f` from indices to states, and a step of one component is
`Function.update f i b`.
-/

namespace LiberSystem

open List Function

section Components

variable {ι β M : Type*} [DecidableEq ι] [AddCommMonoid M]

variable {s : Finset ι}

theorem sum_update_eq (g : ι → β → M) (f : ι → β) {i : ι} (hi : i ∈ s) (b : β) :
    ∑ j ∈ s, g j (update f i b j) = g i b + ∑ j ∈ s.erase i, g j (f j) := by
  rw [← Finset.add_sum_erase _ _ hi,update_self]
  congr 1
  refine Finset.sum_congr rfl fun j hj => ?_
  rw [update_of_ne (Finset.ne_of_mem_erase hj)]

theorem sum_update (g : ι → β → M) (f : ι → β) {i : ι} (hi : i ∈ s) (b : β) :
    ∑ j ∈ s, g j (update f i b j) + g i (f i) = ∑ j ∈ s, g j (f j) + g i b := by
  rw [sum_update_eq g f hi,← Finset.add_sum_erase s (fun j => g j (f j)) hi]
  rw [add_comm (g i b),add_comm (g i (f i)),add_right_comm]

end Components

variable {α ι β : Type*} {l : List α} {n i : Nat}

theorem countP_eq_sum (p : α → Bool) (l : List α) (d : α) :
    l.countP p = ∑ i ∈ Finset.range l.length, (p (l.getD i d)).toNat := by
  induction l with
  | nil => rfl
  | cons a rest ih =>
    rw [length_cons,Finset.sum_range_succ',countP_cons,ih]
    simp only [getD_cons_succ,getD_cons_zero]
    cases p a <;> rfl

theorem length_eq_sum_count {l : List Nat} (h : ∀ i ∈ l, i < n) :
    l.length = ∑ i ∈ Finset.range n, l.count i := by
  have hsum := Multiset.sum_count_eq_card (m := (l : Multiset Nat))
    fun i hi => Finset.mem_range.mpr (h i hi)
  simpa using hsum.symm

theorem countP_set_add (p : α → Bool) (hi : i < l.length)
    (a d : α) : (l.set i a).countP p + (p (l.getD i d)).toNat = l.countP p + (p a).toNat := by
  have hset := (set_perm_cons_eraseIdx hi a).countP_eq p
  have hget := (getElem_cons_eraseIdx_perm hi).countP_eq p
  rw [countP_cons] at hset hget
  rw [getD_eq_getElem _ _ hi,hset,← hget]
  cases p a <;> cases p l[i] <;> simp

theorem countP_update_of_not_mem [DecidableEq ι] (q : β → Bool) (f : ι → β)
    {l : List ι} {i : ι} (hi : i ∉ l) (b : β) :
    (l.countP fun j => q (update f i b j)) = l.countP fun j => q (f j) := by
  refine countP_congr fun j hj => ?_
  have hne : j ≠ i := fun heq => hi (heq ▸ hj)
  rw [update_of_ne hne]

theorem countP_update [DecidableEq ι] (q : β → Bool) (f : ι → β) {l : List ι}
    (hl : l.Nodup) {i : ι} (hi : i ∈ l) (b : β) :
    (l.countP fun j => q (update f i b j)) + (q (f i)).toNat
      = (l.countP fun j => q (f j)) + (q b).toNat := by
  have hperm := perm_cons_erase hi
  rw [hperm.countP_eq,hperm.countP_eq (fun j => q (f j)),countP_cons,countP_cons,update_self,
    countP_update_of_not_mem q f hl.not_mem_erase]
  cases q b <;> cases q (f i) <;> simp

theorem countP_range_stretch {p q : Nat → Bool} {a m : Nat} (hm : a + n ≤ m)
    (hp : ∀ i, a ≤ i → i < a + n → p i = false)
    (hq : ∀ i, q i = if a ≤ i ∧ i < a + n then true else p i) :
    (range m).countP q = (range m).countP p + n := by
  obtain ⟨k,rfl⟩ := Nat.exists_eq_add_of_le hm
  have hsplit : range (a + n + k) = range' 0 a ++ range' a n ++ range' (a + n) k := by
    rw [range_eq_range',← range'_append_1,← range'_append_1]
    simp only [Nat.zero_add]
  have hout : ∀ {b k : Nat}, (b + k ≤ a ∨ a + n ≤ b) →
      (range' b k).countP q = (range' b k).countP p := by
    intro b k hbk
    refine countP_congr fun i hi => ?_
    have := mem_range'_1.mp hi
    rw [hq,if_neg (by omega)]
  have hnone : (range' a n).countP p = 0 := by
    refine countP_eq_zero.mpr fun i hi => ?_
    have := mem_range'_1.mp hi
    rw [hp i this.1 this.2]
    exact Bool.false_ne_true
  have hall : (range' a n).countP q = n := by
    rw [countP_eq_length.mpr fun i hi => ?_,length_range']
    rw [hq,if_pos (mem_range'_1.mp hi)]
  rw [hsplit]
  simp only [countP_append]
  rw [hout (Or.inl (by omega)),hout (Or.inr le_rfl),hnone,hall]
  omega

theorem filterMap_set_perm (f : α → Option β) (hi : i < l.length) (a d : α) :
    ((l.set i a).filterMap f ++ (f (l.getD i d)).toList).Perm (l.filterMap f ++ (f a).toList) := by
  have hcons : ∀ b rest, (b :: rest).filterMap f = (f b).toList ++ rest.filterMap f := by
    intro b rest
    cases hb : f b <;> simp [hb]
  have hset := (set_perm_cons_eraseIdx hi a).filterMap f
  have hget := (getElem_cons_eraseIdx_perm hi).filterMap f
  rw [hcons] at hset hget
  rw [getD_eq_getElem _ _ hi]
  refine (hset.append_right _).trans (.trans ?_ (hget.append_right _))
  refine perm_append_comm.trans ?_
  rw [append_assoc]
  exact perm_append_comm.append_left _

end LiberSystem
