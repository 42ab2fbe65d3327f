import Mathlib.Logic.Basic

/-!
# One bit of a word

A bitmap keeps bit `i` in a word of 64 bits, under the mask `1 <<< (i % 64)`. These are the bits of
a word that is tested, joined or cleared with such a mask.
-/

namespace LiberSystem

variable {v : BitVec 64} {i j : Nat}

theorem and_mask_ne_zero : v &&& 1#64 <<< (i % 64) ≠ 0 ↔ v.getLsbD (i % 64) = true := by
  have hlt : i % 64 < 64 := Nat.mod_lt _ (by decide)
  rw [← BitVec.twoPow_eq,BitVec.and_twoPow]
  split
  · next h =>
    refine iff_of_true (fun h0 => ?_) h
    have hbit := congrArg (fun x => x.getLsbD (i % 64)) h0
    simp [hlt] at hbit
  · next h => exact iff_of_false (fun hne => hne rfl) h

theorem getLsbD_or_mask :
    (v ||| 1#64 <<< (i % 64)).getLsbD j = (v.getLsbD j || decide (j = i % 64)) := by
  have hlt : i % 64 < 64 := Nat.mod_lt _ (by decide)
  rw [← BitVec.twoPow_eq,BitVec.getLsbD_or,BitVec.getLsbD_twoPow]
  simp [hlt,eq_comm]

theorem getLsbD_and_not_mask (hj : j < 64) :
    (v &&& ~~~(1#64 <<< (i % 64))).getLsbD j = (v.getLsbD j && !decide (j = i % 64)) := by
  have hlt : i % 64 < 64 := Nat.mod_lt _ (by decide)
  rw [← BitVec.twoPow_eq,BitVec.getLsbD_and,BitVec.getLsbD_not,BitVec.getLsbD_twoPow]
  simp [hlt,hj,eq_comm]

end LiberSystem
