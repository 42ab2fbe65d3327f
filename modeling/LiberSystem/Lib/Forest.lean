import Mathlib.Data.List.Nodup

/-!
# Forests of numbered nodes

A forest is given by the parent of each node. A parent has a smaller number than its children, so
`path d`, the nodes from `d` up to a root, ends.
-/

namespace LiberSystem

structure Forest where
  parent : Nat → Option Nat
  parent_lt : ∀ {d p}, parent d = some p → p < d

namespace Forest

variable (F : Forest) {d x : Nat}

def climb : Nat → Nat → List Nat
  | 0, _ => []
  | n + 1, d =>
    match F.parent d with
    | some p => d :: climb n p
    | none => [d]

def path (d : Nat) : List Nat := F.climb (d + 1) d

theorem climb_congr {n m : Nat} (hn : d < n) (hm : d < m) : F.climb n d = F.climb m d := by
  induction n generalizing m d with
  | zero => omega
  | succ n ih =>
    obtain ⟨m,rfl⟩ : ∃ k, m = k + 1 := ⟨m - 1,by omega⟩
    rw [climb,climb]
    cases hp : F.parent d with
    | none => rfl
    | some p =>
      have hlt := F.parent_lt hp
      dsimp only
      rw [ih (m := m) (by omega) (by omega)]

theorem path_of_parent {p : Nat} (h : F.parent d = some p) : F.path d = d :: F.path p := by
  have hlt := F.parent_lt h
  rw [path,climb,h]
  dsimp only
  rw [path,F.climb_congr (m := p + 1) (by omega) (by omega)]

theorem path_of_root (h : F.parent d = none) : F.path d = [d] := by
  rw [path,climb,h]

theorem cons_tail_path (d : Nat) : d :: (F.path d).tail = F.path d := by
  cases hp : F.parent d with
  | none =>
    rw [F.path_of_root hp]
    rfl
  | some p =>
    rw [F.path_of_parent hp]
    rfl

theorem le_of_mem_path (h : x ∈ F.path d) : x ≤ d := by
  induction d using Nat.strongRecOn with
  | ind d ih =>
    cases hp : F.parent d with
    | none =>
      rw [F.path_of_root hp,List.mem_singleton] at h
      omega
    | some p =>
      have hlt := F.parent_lt hp
      rw [F.path_of_parent hp,List.mem_cons] at h
      rcases h with rfl | h
      · exact Nat.le_refl x
      · have := ih p hlt h
        omega

theorem nodup_path (d : Nat) : (F.path d).Nodup := by
  induction d using Nat.strongRecOn with
  | ind d ih =>
    cases hp : F.parent d with
    | none =>
      rw [F.path_of_root hp]
      exact List.nodup_singleton d
    | some p =>
      have hlt := F.parent_lt hp
      rw [F.path_of_parent hp]
      refine List.nodup_cons.mpr ⟨fun hmem => ?_,ih p hlt⟩
      have := F.le_of_mem_path hmem
      omega

theorem mem_path_self (d : Nat) : d ∈ F.path d := by
  rw [← F.cons_tail_path d]
  exact List.mem_cons_self

theorem mem_path_trans {a : Nat} (ha : a ∈ F.path d) (hd : d ∈ F.path x) : a ∈ F.path x := by
  induction x using Nat.strongRecOn with
  | ind x ih =>
    cases hp : F.parent x with
    | none =>
      rw [F.path_of_root hp,List.mem_singleton] at hd
      exact hd ▸ ha
    | some p =>
      rw [F.path_of_parent hp,List.mem_cons] at hd
      rcases hd with rfl | hd
      · exact ha
      · rw [F.path_of_parent hp]
        exact List.mem_cons_of_mem x (ih p (F.parent_lt hp) hd)

end Forest

end LiberSystem
