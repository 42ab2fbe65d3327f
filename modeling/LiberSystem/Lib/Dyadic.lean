import Mathlib.Algebra.Order.BigOperators.Group.Finset
import Mathlib.Order.Interval.Finset.Nat
import Mathlib.Data.Nat.Bitwise
import Mathlib.Tactic.Ring

/-!
# Sets of disjoint dyadic blocks

A block `(k, i)` is the `2 ^ k` numbers from `i * 2 ^ k` on.
-/

namespace LiberSystem

open Finset

namespace DyadicBlock

def span (x : ℕ × ℕ) : Finset ℕ := Finset.Ico (x.2 * 2 ^ x.1) ((x.2 + 1) * 2 ^ x.1)

theorem mem_span {x : ℕ × ℕ} {p : ℕ} : p ∈ span x ↔ p / 2 ^ x.1 = x.2 := by
  rw [span,mem_Ico,Nat.div_eq_iff (Nat.two_pow_pos _),Nat.succ_mul]
  have := Nat.two_pow_pos x.1
  omega

theorem card_span (x : ℕ × ℕ) : (span x).card = 2 ^ x.1 := by
  rw [span,Nat.card_Ico,Nat.succ_mul,Nat.add_sub_cancel_left]

theorem first_mem_span (x : ℕ × ℕ) : x.2 * 2 ^ x.1 ∈ span x :=
  mem_span.mpr (Nat.mul_div_cancel _ (Nat.two_pow_pos _))

theorem mem_span_succ {k i p : ℕ} :
    p ∈ span (k + 1, i) ↔ p ∈ span (k, 2 * i) ∨ p ∈ span (k, 2 * i + 1) := by
  simp only [mem_span,Nat.pow_succ,← Nat.div_div_eq_div_mul]
  omega

theorem disjoint_span_of_ne {k i j : ℕ} (h : i ≠ j) : Disjoint (span (k, i)) (span (k, j)) := by
  refine disjoint_left.mpr fun p hi hj => h ?_
  exact (mem_span.mp hi).symm.trans (mem_span.mp hj)

theorem not_disjoint_span_iff {k m i j : ℕ} (hkm : k ≤ m) :
    ¬ Disjoint (span (k, i)) (span (m, j)) ↔ i / 2 ^ (m - k) = j := by
  have hpow : 2 ^ m = 2 ^ k * 2 ^ (m - k) := by rw [← pow_add,Nat.add_sub_cancel' hkm]
  rw [not_disjoint_iff]
  simp only [mem_span,hpow,← Nat.div_div_eq_div_mul]
  constructor
  · rintro ⟨p,rfl,hp⟩
    exact hp
  · rintro rfl
    exact ⟨i * 2 ^ k,Nat.mul_div_cancel _ (Nat.two_pow_pos _),
      by rw [Nat.mul_div_cancel _ (Nat.two_pow_pos _)]⟩

theorem xor_one_eq (i : ℕ) : i ^^^ 1 = if i % 2 = 0 then i + 1 else i - 1 := by
  rcases Nat.even_or_odd i with h | h
  · rw [Nat.xor_one_of_even h,if_pos (Nat.even_iff.mp h)]
  · rw [Nat.xor_one_of_odd h,if_neg (by rw [Nat.odd_iff.mp h]; decide)]

theorem xor_one_ne (i : ℕ) : i ^^^ 1 ≠ i := by
  rw [xor_one_eq]
  split <;> omega

theorem mem_span_buddy {k i p : ℕ} :
    p ∈ span (k + 1, i / 2) ↔ p ∈ span (k, i) ∨ p ∈ span (k, i ^^^ 1) := by
  rw [mem_span_succ,xor_one_eq]
  have hi : i = 2 * (i / 2) ∨ i = 2 * (i / 2) + 1 := by omega
  rcases hi with hi | hi
  · rw [if_pos (by omega),← hi]
  · rw [if_neg (by omega),show i - 1 = 2 * (i / 2) by omega,← hi]
    exact Or.comm

end DyadicBlock

open DyadicBlock

/-- A coalesced set of blocks of orders up to `top` inside an extent of `size`. -/
structure Coalesced (top size : ℕ) (F : Finset (ℕ × ℕ)) : Prop where
  order : ∀ x ∈ F, x.1 ≤ top
  inside : ∀ x ∈ F, (x.2 + 1) * 2 ^ x.1 ≤ size
  disjoint : ∀ x ∈ F, ∀ y ∈ F, x ≠ y → Disjoint (span x) (span y)
  buddies : ∀ x ∈ F, x.1 < top → (x.1, x.2 ^^^ 1) ∉ F

def weight (F : Finset (ℕ × ℕ)) : ℕ := ∑ x ∈ F, 2 ^ x.1

variable {F : Finset (ℕ × ℕ)} {x : ℕ × ℕ}

theorem weight_erase (h : x ∈ F) : weight (F.erase x) + 2 ^ x.1 = weight F := sum_erase_add F _ h

theorem weight_insert (h : x ∉ F) : weight (insert x F) = weight F + 2 ^ x.1 := by
  rw [weight,sum_insert h,Nat.add_comm]
  rfl

namespace Coalesced

variable {top size : ℕ} {F : Finset (ℕ × ℕ)} {x : ℕ × ℕ}

theorem empty : Coalesced top size ∅ := by
  constructor <;> simp

variable (h : Coalesced top size F)
include h

theorem erase (x : ℕ × ℕ) : Coalesced top size (F.erase x) where
  order := fun y hy => h.order y (mem_of_mem_erase hy)
  inside := fun y hy => h.inside y (mem_of_mem_erase hy)
  disjoint := fun y hy z hz => h.disjoint y (mem_of_mem_erase hy) z (mem_of_mem_erase hz)
  buddies := fun y hy hlt hb => h.buddies y (mem_of_mem_erase hy) hlt (mem_of_mem_erase hb)

theorem weight_eq_card : weight F = (F.biUnion span).card := by
  rw [card_biUnion h.disjoint]
  exact sum_congr rfl fun y _ => (card_span y).symm

end Coalesced

/-- `x` is in hand: it lies inside the extent and touches no block of `F`. -/
structure Fits (top size : ℕ) (F : Finset (ℕ × ℕ)) (x : ℕ × ℕ) : Prop where
  coalesced : Coalesced top size F
  order : x.1 ≤ top
  inside : (x.2 + 1) * 2 ^ x.1 ≤ size
  clear : ∀ y ∈ F, Disjoint (span x) (span y)

namespace Fits

variable {top size k i : ℕ} {F : Finset (ℕ × ℕ)} {x : ℕ × ℕ}

theorem not_mem (h : Fits top size F x) : x ∉ F := by
  intro hx
  have hdis := disjoint_left.mp (h.clear x hx)
  exact hdis (first_mem_span x) (first_mem_span x)

theorem of_mem (h : Coalesced top size F) (hx : x ∈ F) : Fits top size (F.erase x) x where
  coalesced := h.erase x
  order := h.order x hx
  inside := h.inside x hx
  clear := fun y hy => h.disjoint x hx y (mem_of_mem_erase hy) (ne_of_mem_erase hy).symm

theorem absorb (h : Fits top size F (k, i)) (hk : k < top) (hb : (k, i ^^^ 1) ∈ F) :
    Fits top size (F.erase (k, i ^^^ 1)) (k + 1, i / 2) where
  coalesced := h.coalesced.erase _
  order := hk
  inside := by
    -- the later of the two halves ends where the whole block ends
    have hown := h.inside
    have hbuddy := h.coalesced.inside _ hb
    rw [pow_succ,show (i / 2 + 1) * (2 ^ k * 2) = (2 * (i / 2) + 1 + 1) * 2 ^ k by ring]
    rw [xor_one_eq] at hbuddy
    split at hbuddy
    · rwa [show 2 * (i / 2) + 1 = i + 1 by omega]
    · rwa [show 2 * (i / 2) + 1 = i by omega]
  clear := by
    intro y hy
    refine disjoint_left.mpr fun p hp hpy => ?_
    rcases mem_span_buddy.mp hp with hp | hp
    · exact disjoint_left.mp (h.clear y (mem_of_mem_erase hy)) hp hpy
    · exact disjoint_left.mp (h.coalesced.disjoint _ hb y (mem_of_mem_erase hy)
        (ne_of_mem_erase hy).symm) hp hpy

theorem put (h : Fits top size F x) (hb : x.1 < top → (x.1, x.2 ^^^ 1) ∉ F) :
    Coalesced top size (insert x F) where
  order := forall_mem_insert _ _ _ |>.mpr ⟨h.order,h.coalesced.order⟩
  inside := forall_mem_insert _ _ _ |>.mpr ⟨h.inside,h.coalesced.inside⟩
  disjoint := by
    intro y hy z hz hne
    rcases mem_insert.mp hy with hyx | hyF <;>
      rcases mem_insert.mp hz with hzx | hzF
    · exact absurd (hyx.trans hzx.symm) hne
    · exact hyx ▸ h.clear z hzF
    · exact (hzx ▸ h.clear y hyF).symm
    · exact h.coalesced.disjoint y hyF z hzF hne
  buddies := by
    intro y hy hlt hmem
    rcases mem_insert.mp hy with rfl | hyF <;>
      rcases mem_insert.mp hmem with heq | hF
    · exact xor_one_ne _ (congrArg Prod.snd heq)
    · exact hb hlt hF
    · -- the buddy of `x` is `y`
      subst heq
      refine hb hlt ?_
      simpa only [Nat.xor_assoc,Nat.xor_self,Nat.xor_zero] using hyF
    · exact h.coalesced.buddies y hyF hlt hF

theorem split (h : Fits top size F (k + 1, i)) :
    Fits top size (insert (k, 2 * i + 1) F) (k, 2 * i) := by
  have hsize : (2 * i + 1 + 1) * 2 ^ k = (i + 1) * 2 ^ (k + 1) := by rw [pow_succ]; ring
  have hhalf : ∀ j, (∀ p ∈ span (k, j), p ∈ span (k + 1, i)) →
      ∀ y ∈ F, Disjoint (span (k, j)) (span y) := by
    intro j hj y hy
    exact disjoint_left.mpr fun p hp => disjoint_left.mp (h.clear y hy) (hj p hp)
  have hlower := hhalf (2 * i) fun p hp => mem_span_succ.mpr (.inl hp)
  have hupper : Fits top size F (k, 2 * i + 1) :=
    ⟨h.coalesced,Nat.le_of_succ_le h.order,hsize ▸ h.inside,
      hhalf (2 * i + 1) fun p hp => mem_span_succ.mpr (.inr hp)⟩
  refine ⟨hupper.put fun _ hb => ?_,Nat.le_of_succ_le h.order,?_,?_⟩
  · -- the buddy of the upper half is the lower half, which is in hand
    have hxor : (2 * i + 1) ^^^ 1 = 2 * i := by rw [xor_one_eq,if_neg (by omega)]; rfl
    rw [hxor] at hb
    exact (Fits.mk h.coalesced (Nat.le_of_succ_le h.order)
      (le_trans (Nat.mul_le_mul_right _ (by omega)) (hsize ▸ h.inside)) hlower).not_mem hb
  · exact le_trans (Nat.mul_le_mul_right _ (by omega)) (hsize ▸ h.inside)
  · intro y hy
    rcases mem_insert.mp hy with rfl | hy
    · exact disjoint_span_of_ne (by omega)
    · exact hlower y hy

end Fits

end LiberSystem
