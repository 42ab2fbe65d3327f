import Mathlib.Algebra.GroupWithZero.Nat
import Mathlib.Data.List.Perm.Basic

/-!
# Vectors searched and changed by position

The search for the first element with a property, as position and element, and the
removal that fills the gap with the last element. What the two do to the contents is
stated up to permutation.
-/

namespace LiberSystem

open List

variable {α : Type*}

def findAt (p : α → Bool) (l : List α) : Option (Nat × α) :=
  (l.findIdx? p).bind fun i => l[i]?.map fun a => (i, a)

variable {p : α → Bool} {l : List α} {i : Nat} {a : α}

theorem findAt_eq_some (h : findAt p l = some (i, a)) : l[i]? = some a ∧ p a = true := by
  obtain ⟨j,hj,ha⟩ := Option.bind_eq_some_iff.mp h
  obtain ⟨b,hb,hab⟩ := Option.map_eq_some_iff.mp ha
  cases hab
  obtain ⟨hi,hp,-⟩ := findIdx?_eq_some_iff_getElem.mp hj
  obtain ⟨_,rfl⟩ := List.getElem?_eq_some_iff.mp hb
  exact ⟨hb,hp⟩

theorem findAt_eq_none_iff : findAt p l = none ↔ ∀ a ∈ l, p a = false := by
  constructor
  · intro h
    cases hj : l.findIdx? p with
    | none => exact findIdx?_eq_none_iff.mp hj
    | some j =>
      obtain ⟨hi,-⟩ := findIdx?_eq_some_iff_getElem.mp hj
      simp [findAt,hj,getElem?_eq_getElem hi] at h
  · intro h
    rw [findAt,findIdx?_eq_none_iff.mpr h]
    rfl

theorem perm_cons_eraseIdx (h : l[i]? = some a) : l ~ a :: l.eraseIdx i := by
  obtain ⟨hi,rfl⟩ := List.getElem?_eq_some_iff.mp h
  exact (getElem_cons_eraseIdx_perm hi).symm

theorem set_perm_eraseIdx (h : l[i]? = some a) (b : α) : l.set i b ~ b :: l.eraseIdx i := by
  obtain ⟨hi,rfl⟩ := List.getElem?_eq_some_iff.mp h
  exact set_perm_cons_eraseIdx hi b

def swapRemove (l : List α) (i : Nat) : List α :=
  match l.getLast? with
  | none => l
  | some last => (l.set i last).dropLast

theorem swapRemove_perm (h : l[i]? = some a) : l ~ a :: swapRemove l i := by
  obtain ⟨hi,rfl⟩ := List.getElem?_eq_some_iff.mp h
  rcases eq_nil_or_concat l with rfl | ⟨init,last,rfl⟩
  · cases hi
  simp only [concat_eq_append] at hi ⊢
  by_cases hin : i < init.length
  · have hget : (init ++ [last])[i] = init[i] := getElem_append_left hin
    have hrem : swapRemove (init ++ [last]) i = init.set i last := by
      simp [swapRemove,set_append_left _ _ hin]
    rw [hrem,hget]
    calc init ++ [last] ~ last :: init := perm_append_singleton last init
      _ ~ last :: init[i] :: init.eraseIdx i := (getElem_cons_eraseIdx_perm hin).symm.cons _
      _ ~ init[i] :: last :: init.eraseIdx i := List.Perm.swap _ _ _
      _ ~ init[i] :: init.set i last := (set_perm_cons_eraseIdx hin last).symm.cons _
  · have heq : i = init.length := by simp at hi; omega
    subst heq
    have hrem : swapRemove (init ++ [last]) init.length = init := by simp [swapRemove]
    rw [hrem]
    simp

end LiberSystem
