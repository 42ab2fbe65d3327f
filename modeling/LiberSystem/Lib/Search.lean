import Mathlib.Order.Basic

/-!
# Binary search

`search n cmp` looks for the position among `n` at which `cmp` answers `eq`, where `cmp i` says on
which side of the target position `i` lies.
-/

namespace LiberSystem

variable {cmp : ℕ → Ordering} {n fuel lo hi p i j : ℕ}

/-- The loop of the search between `lo` and `hi`. The fuel is at least the distance,
which every turn makes smaller. -/
def bisect (cmp : ℕ → Ordering) : ℕ → ℕ → ℕ → Except ℕ ℕ
  | 0, lo, _ => .error lo
  | fuel + 1, lo, hi =>
    if lo < hi then
      match cmp ((lo + hi) / 2) with
      | .lt => bisect cmp fuel ((lo + hi) / 2 + 1) hi
      | .gt => bisect cmp fuel lo ((lo + hi) / 2)
      | .eq => .ok ((lo + hi) / 2)
    else .error lo

/-- The position of the target among `n`, or where it would have to be inserted. -/
def search (n : ℕ) (cmp : ℕ → Ordering) : Except ℕ ℕ := bisect cmp n 0 n

/-- Of two positions the lower one is below the target or the upper one above it. -/
def SearchOrder (n : ℕ) (cmp : ℕ → Ordering) : Prop :=
  ∀ i j, i < j → j < n → cmp i = .lt ∨ cmp j = .gt

section

variable (h : SearchOrder n cmp) (hij : i ≤ j) (hj : j < n)
include h hij hj

theorem SearchOrder.lt_of_le (hlt : cmp j = .lt) : cmp i = .lt := by
  rcases Nat.lt_or_eq_of_le hij with hlt' | rfl
  · exact (h i j hlt' hj).resolve_right (by rw [hlt]; decide)
  · exact hlt

theorem SearchOrder.gt_of_le (hgt : cmp i = .gt) : cmp j = .gt := by
  rcases Nat.lt_or_eq_of_le hij with hlt | rfl
  · exact (h i j hlt hj).resolve_left (by rw [hgt]; decide)
  · exact hgt

end

/-- What the search has to answer: a position of the target, or the place that has
everything below the target before it and everything above from it on. -/
def Located (n : ℕ) (cmp : ℕ → Ordering) : Except ℕ ℕ → Prop
  | .ok p => p < n ∧ cmp p = .eq
  | .error p => p ≤ n ∧ (∀ i < p, cmp i = .lt) ∧ ∀ i, p ≤ i → i < n → cmp i = .gt

theorem located_bisect (h : SearchOrder n cmp) (hfuel : hi - lo ≤ fuel) (hle : lo ≤ hi)
    (hhi : hi ≤ n)
    (hbelow : ∀ i < lo, cmp i = .lt) (habove : ∀ i, hi ≤ i → i < n → cmp i = .gt) :
    Located n cmp (bisect cmp fuel lo hi) := by
  induction fuel generalizing lo hi with
  | zero =>
    obtain rfl : lo = hi := by omega
    exact ⟨hhi,hbelow,habove⟩
  | succ fuel ih =>
    rw [bisect]
    by_cases hlt : lo < hi
    · have hmid : (lo + hi) / 2 < n := by omega
      rw [if_pos hlt]
      cases hcmp : cmp ((lo + hi) / 2) with
      | lt =>
        refine ih (by omega) (by omega) hhi (fun i hi' => ?_) habove
        exact h.lt_of_le (Nat.le_of_lt_succ hi') hmid hcmp
      | gt =>
        refine ih (by omega) (by omega) (by omega) hbelow fun i hi' hn => ?_
        exact h.gt_of_le hi' hn hcmp
      | eq => exact ⟨hmid,hcmp⟩
    · obtain rfl : lo = hi := by omega
      rw [if_neg hlt]
      exact ⟨hhi,hbelow,habove⟩

theorem located_search (h : SearchOrder n cmp) : Located n cmp (search n cmp) :=
  located_bisect h (by omega) (Nat.zero_le n) (Nat.le_refl n)
    (fun i hi => absurd hi (Nat.not_lt_zero i))
    fun i hi hn => absurd hn (Nat.not_lt.mpr hi)

end LiberSystem
