import Mathlib.Data.List.Forall2

/-!
# What has happened, in which order

A history is a list with the oldest entry first. `InOrder ps h` says that for each condition of `ps`
there is an entry of `h` that meets it, and that these entries stand in the order of the conditions.
-/

namespace LiberSystem

open List

variable {α : Type*} {p : α → Prop} {ps qs : List (α → Prop)} {h t : List α} {a : α}

def InOrder (ps : List (α → Prop)) (h : List α) : Prop :=
  List.SublistForall₂ (fun p a => p a) ps h

namespace InOrder

theorem iff_sublist : InOrder ps h ↔ ∃ l, List.Forall₂ (fun p a => p a) ps l ∧ l.Sublist h :=
  sublistForall₂_iff

theorem mono (hin : InOrder ps h) (t : List α) : InOrder ps (h ++ t) := by
  obtain ⟨l,hps,hl⟩ := iff_sublist.mp hin
  exact iff_sublist.mpr ⟨l,hps,hl.trans (sublist_append_left h t)⟩

theorem snoc (hin : InOrder ps h) (ha : p a) : InOrder (ps ++ [p]) (h ++ [a]) := by
  obtain ⟨l,hps,hl⟩ := iff_sublist.mp hin
  exact iff_sublist.mpr ⟨l ++ [a],rel_append hps (.cons ha .nil),hl.append (List.Sublist.refl _)⟩

theorem single (h : List α) (ha : p a) : InOrder [p] (h ++ [a]) := snoc (.nil : InOrder [] h) ha

/-- The last condition is met by the last entry, or all of them were met before it. -/
theorem of_snoc (hin : InOrder (ps ++ [p]) (h ++ [a])) :
    InOrder (ps ++ [p]) h ∨ InOrder ps h ∧ p a := by
  obtain ⟨l,hps,hl⟩ := iff_sublist.mp hin
  obtain ⟨l₁,l₂,rfl,hl₁,hl₂⟩ := sublist_append_iff.mp hl
  rcases sublist_singleton.mp hl₂ with rfl | rfl
  · rw [append_nil] at hps
    exact .inl (iff_sublist.mpr ⟨l₁,hps,hl₁⟩)
  have hlen : ps.length = l₁.length := by simpa using hps.length_eq
  have hinit := forall₂_take ps.length hps
  have hlast := forall₂_drop ps.length hps
  rw [take_left,hlen,take_left] at hinit
  rw [drop_left,hlen,drop_left] at hlast
  cases hlast with
  | cons hp _ => exact .inr ⟨iff_sublist.mpr ⟨l₁,hinit,hl₁⟩,hp⟩

theorem exists_of_mem (hin : InOrder ps h) (hp : p ∈ ps) : ∃ a ∈ h, p a := by
  obtain ⟨l,hps,hl⟩ := iff_sublist.mp hin
  obtain ⟨i,hi,rfl⟩ := getElem_of_mem hp
  have hlt : i < l.length := hps.length_eq ▸ hi
  exact ⟨l[i],hl.subset (getElem_mem hlt),hps.get hi hlt⟩

theorem left (hin : InOrder (ps ++ qs) h) : InOrder ps h := by
  obtain ⟨l,hps,hl⟩ := iff_sublist.mp hin
  refine iff_sublist.mpr ⟨l.take ps.length,?_,(take_sublist _ l).trans hl⟩
  have htake := forall₂_take ps.length hps
  rwa [take_left] at htake

end InOrder

theorem split_snoc {pre post : List α} {s : α} (heq : h ++ [a] = pre ++ s :: post) :
    pre = h ∧ s = a ∧ post = [] ∨ ∃ post', post = post' ++ [a] ∧ h = pre ++ s :: post' := by
  rcases eq_nil_or_concat post with rfl | ⟨post',b,rfl⟩
  · obtain ⟨rfl,hlast⟩ := append_inj' heq rfl
    cases hlast
    exact .inl ⟨rfl,rfl,rfl⟩
  · rw [concat_eq_append,← cons_append,← append_assoc] at heq
    obtain ⟨rfl,hlast⟩ := append_inj' heq rfl
    cases hlast
    exact .inr ⟨post',concat_eq_append,rfl⟩

end LiberSystem
