import Mathlib.Data.List.Perm.Basic
import Mathlib.Order.Interval.Set.Basic

/-!
# Ranges that share nothing

A range is a pair of its first number and the number after its last. A list of ranges is exclusive
when no two positions of it share a number.
-/

namespace LiberSystem

open List

def Apart (r s : Nat × Nat) : Prop := r.2 ≤ s.1 ∨ s.2 ≤ r.1

theorem Apart.symm {r s : Nat × Nat} (h : Apart r s) : Apart s r := Or.symm h

theorem Apart.not_mem {r s : Nat × Nat} {p : Nat} (h : Apart r s) (hp : p ∈ Set.Ico r.1 r.2) :
    p ∉ Set.Ico s.1 s.2 := by
  intro hq
  obtain ⟨hlo,hhi⟩ := Set.mem_Ico.mp hp
  obtain ⟨hlo',hhi'⟩ := Set.mem_Ico.mp hq
  rcases h with h | h <;> omega

def Exclusive (held : List (Nat × Nat)) : Prop := held.Pairwise Apart

namespace Exclusive

variable {held held' : List (Nat × Nat)} {r : Nat × Nat}

theorem nil : Exclusive [] := List.Pairwise.nil

theorem perm (h : Exclusive held) (hp : held ~ held') : Exclusive held' :=
  hp.pairwise h fun hrs => hrs.symm

theorem cons_iff : Exclusive (r :: held) ↔ (∀ s ∈ held, Apart r s) ∧ Exclusive held :=
  List.pairwise_cons

theorem apart_of_ne {α : Type*} {f : α → Nat × Nat} {l : List α} (h : Exclusive (l.map f))
    {i j : Nat} (hij : i ≠ j) {a b : α} (ha : l[i]? = some a) (hb : l[j]? = some b) :
    Apart (f a) (f b) := by
  have hlt : ∀ {i j : Nat} {a b : α}, i < j → l[i]? = some a → l[j]? = some b →
      Apart (f a) (f b) := by
    intro i j a b hij ha hb
    obtain ⟨hi,rfl⟩ := List.getElem?_eq_some_iff.mp ha
    obtain ⟨hj,rfl⟩ := List.getElem?_eq_some_iff.mp hb
    exact List.pairwise_iff_getElem.mp (List.pairwise_map.mp h) i j hi hj hij
  rcases Nat.lt_or_gt_of_ne hij with hij | hij
  · exact hlt hij ha hb
  · exact (hlt hij hb ha).symm

end Exclusive

end LiberSystem
